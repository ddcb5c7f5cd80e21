import Mathlib

/-! # Splitting output into whole VT units (`terminal/vt_stream.rs`)

The splitter emits a unit when its terminator has been seen. A unit carries the order and the sequence of its first
byte. A unit that is too large is dropped, and the splitter waits for its terminator. -/

namespace Ferryx.Terminal

def ascii (s : String) : List UInt8 := s.toList.map Char.toUInt8

def esc : UInt8 := 0x1b
def bel : UInt8 := 0x07
def oscImageClassifyBytes : Nat := 19
def dcsClassifyBytes : Nat := 32

inductive UnitKind where
  | text
  | image
  deriving DecidableEq

structure Part where
  start : Nat
  order : Nat
  sequence : Nat
  deriving DecidableEq

structure VtUnit where
  kind : UnitKind
  bytes : List UInt8
  order : Nat
  sequence : Nat
  parts : List Part
  deriving DecidableEq

structure Pending where
  bytes : List UInt8
  sequence : Option Nat
  parts : List Part
  deriving DecidableEq

inductive Scan where
  | ground
  | escape
  | csi
  | csiDiscard
  | string
  | stringEscape
  deriving DecidableEq

inductive Continuation where
  | standalone
  | opens
  | continues
  | closes
  deriving DecidableEq

/-- The last value of the key `m` in the control data of a kitty graphics command. -/
def kittyContinuation (payload : List UInt8) : Continuation :=
  if payload.head? ≠ some 'G'.toUInt8 then .standalone
  else
    let control := (payload.drop 1).takeWhile (· ≠ ';'.toUInt8)
    let more := (control.splitOn ','.toUInt8).foldl (fun more field =>
      if field.takeWhile (· ≠ '='.toUInt8) = ascii "m" then
        some (field.contains '='.toUInt8 && (field.dropWhile (· ≠ '='.toUInt8)).drop 1 == ascii "1")
      else more) none
    match more with
    | some true => .opens
    | some false => .closes
    | none => .standalone

def itermContinuation (payload : List UInt8) : Continuation :=
  if (ascii "1337;MultipartFile=").isPrefixOf payload then .opens
  else if (ascii "1337;FilePart=").isPrefixOf payload then .continues
  else if (ascii "1337;FileEnd").isPrefixOf payload then .closes
  else .standalone

inductive Transmission where
  | idle
  | open
  | discarding
  deriving DecidableEq

structure Mark where
  order : Nat
  sequence : Nat
  deriving DecidableEq

structure VtUnitSplitter where
  scan : Scan := .ground
  text : List UInt8 := []
  string : List UInt8 := []
  introducer : UInt8 := 0
  kind : UnitKind := .text
  classified : Bool := true
  poisoned : Bool := false
  discardedRole : Option Continuation := none
  maxUnitBytes : Nat
  textFlushBytes : Nat
  transmission : Transmission := .idle
  group : List UInt8 := []
  csiStart : Nat := 0
  nextOrder : Nat := 0
  sequence : Nat := 0
  textMark : Option Mark := none
  stringMark : Option Mark := none
  groupMark : Option Mark := none
  groupParts : List Part := []
  deriving DecidableEq

namespace VtUnitSplitter

def new (maxUnitBytes textFlushBytes : Nat) : VtUnitSplitter := { maxUnitBytes := max maxUnitBytes 64, textFlushBytes }

def pending (s : VtUnitSplitter) : Pending :=
  let opened := s.transmission = .open ∧ s.group ≠ []
  let bytes := if opened then s.group else []
  let parts := if opened then s.groupParts else []
  let sequence := if opened then s.groupMark.map Mark.sequence else none
  let mark := match s.scan with
    | .string | .stringEscape => s.stringMark
    | _ => s.textMark
  let parts := match mark with
    | some mark => parts ++ [⟨bytes.length, mark.order, mark.sequence⟩]
    | none => if s.scan = .csiDiscard then parts ++ [⟨bytes.length, s.nextOrder, s.sequence⟩] else parts
  match s.scan with
  | .string | .stringEscape =>
    ⟨bytes ++ s.string ++ if s.poisoned ∧ s.scan = .stringEscape then [esc] else [],
      sequence.or (s.stringMark.map Mark.sequence), parts⟩
  | .csiDiscard =>
    ⟨bytes ++ s.text ++ [esc, '['.toUInt8], (sequence.or (s.textMark.map Mark.sequence)).or (some s.sequence), parts⟩
  | _ => ⟨bytes ++ s.text, sequence.or (s.textMark.map Mark.sequence), parts⟩

def allocate (s : VtUnitSplitter) : VtUnitSplitter × Mark :=
  ({ s with nextOrder := s.nextOrder + 1 }, ⟨s.nextOrder, s.sequence⟩)

def pushText (s : VtUnitSplitter) (byte : UInt8) : VtUnitSplitter :=
  if s.text = [] then
    let (s, mark) := s.allocate
    { s with textMark := some mark, text := [byte] }
  else { s with text := s.text ++ [byte] }

def transmissionRole (s : VtUnitSplitter) (bytes : List UInt8) : Continuation :=
  if s.kind ≠ .image ∧ s.transmission = .idle then .standalone
  else match bytes with
    | _ :: b :: payload =>
      if b = '_'.toUInt8 then kittyContinuation payload
      else if b = ']'.toUInt8 then itermContinuation payload
      else .standalone
    | _ => .standalone

/-- A lone `m=0` with transmission metadata is a whole image, and a chain without its last `m=0` ends at the first
command that carries no `m`. -/
def adjustedRole (s : VtUnitSplitter) (bytes : List UInt8) (dropped : Bool) : Continuation :=
  let role := s.transmissionRole bytes
  if s.kind ≠ .image ∨ ¬([esc, '_'.toUInt8, 'G'.toUInt8].isPrefixOf bytes) then role
  else match s.transmission, role with
    | .idle, .closes =>
      let control := (bytes.drop 3).takeWhile (· ≠ ';'.toUInt8)
      let metadata (field : List UInt8) : Bool := [ascii "a=", ascii "f=", ascii "s=", ascii "v="].any (·.isPrefixOf field)
      if (control.splitOn ','.toUInt8).any metadata then .standalone else role
    | .open, .standalone | .discarding, .standalone => if dropped then role else .closes
    | _, _ => role

def beginString (s : VtUnitSplitter) (introducer : UInt8) : VtUnitSplitter :=
  let (s, mark) := s.allocate
  { s with
    introducer, kind := .text, classified := introducer = '^'.toUInt8 ∨ introducer = 'X'.toUInt8, poisoned := false,
    discardedRole := none, string := [esc, introducer], stringMark := some mark, scan := .string }

def pushString (s : VtUnitSplitter) (byte : UInt8) : VtUnitSplitter :=
  if s.poisoned then s
  else if s.maxUnitBytes ≤ s.string.length then
    { s with discardedRole := some (s.adjustedRole s.string false), poisoned := true, string := s.string.take 2 }
  else { s with string := s.string ++ [byte] }

def emit (s : VtUnitSplitter) (kind : UnitKind) (bytes : List UInt8) (mark : Option Mark) (dropped : Bool)
    (parts : List Part) :
    VtUnitSplitter × List VtUnit :=
  if dropped ∨ bytes = [] then (s, [])
  else match mark with
    | some mark => (s, [⟨kind, bytes, mark.order, mark.sequence, parts⟩])
    | none =>
      let (s, mark) := s.allocate
      (s, [⟨kind, bytes, mark.order, mark.sequence, parts⟩])

def extendGroup (s : VtUnitSplitter) (bytes : List UInt8) (dropped : Bool) : VtUnitSplitter :=
  if s.transmission ≠ .open then s
  else if dropped ∨ s.maxUnitBytes < s.group.length + bytes.length then
    { s with transmission := .discarding, group := [], groupParts := [] }
  else { s with group := s.group ++ bytes }

def closeGroup (s : VtUnitSplitter) : VtUnitSplitter × List VtUnit :=
  let closed := { s with group := [], groupParts := [], groupMark := none, transmission := .idle }
  if s.transmission = .discarding ∨ s.group = [] then (closed, [])
  else closed.emit .image s.group s.groupMark false s.groupParts

def addPart (s : VtUnitSplitter) (mark : Option Mark) : VtUnitSplitter :=
  { s with groupParts := s.groupParts ++ (mark.map fun m => ⟨s.group.length, m.order, m.sequence⟩).toList }

def finishString (s : VtUnitSplitter) : VtUnitSplitter × List VtUnit :=
  let bytes := s.string
  let mark := s.stringMark
  let dropped := s.poisoned
  let s := { s with string := [], stringMark := none, poisoned := false, classified := true, scan := .ground }
  if bytes = [] then (s, [])
  else
    let role := s.discardedRole.getD (s.adjustedRole bytes dropped)
    let s := { s with discardedRole := none }
    match s.transmission, role with
    | .idle, .opens =>
      let parts := (mark.map fun m => (⟨0, m.order, m.sequence⟩ : Part)).toList
      let s := { s with groupMark := mark, groupParts := parts }
      (if dropped then { s with transmission := .discarding, group := [] }
        else { s with transmission := .open, group := bytes }, [])
    | .idle, .continues | .idle, .closes => (s, [])
    | .open, .opens | .open, .continues => ((s.addPart mark).extendGroup bytes dropped, [])
    | .open, .closes => ((s.addPart mark).extendGroup bytes dropped).closeGroup
    | .discarding, .closes => ({ s with transmission := .idle, groupMark := none }, [])
    | .discarding, .opens | .discarding, .continues => (s, [])
    | _, .standalone => s.emit s.kind bytes mark dropped []

def flushText (s : VtUnitSplitter) : VtUnitSplitter × List VtUnit :=
  if s.text = [] then (s, [])
  else { s with text := [], textMark := none }.emit .text s.text s.textMark false []

def flushTextWhenLarge (s : VtUnitSplitter) : VtUnitSplitter × List VtUnit :=
  if s.textFlushBytes ≤ s.text.length then s.flushText else (s, [])

def isFinal (byte : UInt8) : Bool := 0x40 ≤ byte && byte ≤ 0x7e

def classify (s : VtUnitSplitter) : VtUnitSplitter :=
  if s.classified then s
  else
    let payload := s.string.drop 2
    if s.introducer = '_'.toUInt8 then
      { s with kind := if payload.head? = some 'G'.toUInt8 then .image else .text, classified := true }
    else if s.introducer = 'P'.toUInt8 then
      let final := payload.getLast?.getD 0
      if isFinal final then { s with kind := if final = 'q'.toUInt8 then .image else .text, classified := true }
      else if dcsClassifyBytes ≤ payload.length then { s with classified := true }
      else s
    else if s.introducer = ']'.toUInt8 then
      if oscImageClassifyBytes ≤ payload.length then
        let image := (ascii "1337;File=").isPrefixOf payload ∨ (ascii "1337;MultipartFile=").isPrefixOf payload
        { s with kind := if image then .image else .text, classified := true }
      else s
    else { s with classified := true }

def clearMark (s : VtUnitSplitter) : VtUnitSplitter := if s.text = [] then { s with textMark := none } else s

def escapeByte (s : VtUnitSplitter) (byte : UInt8) : VtUnitSplitter × List VtUnit :=
  if byte = esc then (s.pushText esc, [])
  else if byte ∈ ['_', 'P', ']', '^', 'X'].map Char.toUInt8 then
    let (s, out) := { s with text := s.text.dropLast }.clearMark.flushText
    (s.beginString byte, out)
  else
    let s := s.pushText byte
    if byte = '['.toUInt8 then ({ s with csiStart := s.text.length - 2, scan := .csi }, [])
    else { s with scan := .ground }.flushTextWhenLarge

/-- One byte. The source takes a run of text without an escape in one go. -/
def pushByte (s : VtUnitSplitter) (byte : UInt8) : VtUnitSplitter × List VtUnit :=
  match s.scan with
  | .ground => if byte = esc then ({ s.pushText esc with scan := .escape }, []) else (s.pushText byte, [])
  | .escape => s.escapeByte byte
  | .csi =>
    if byte = esc then ({ s.pushText esc with scan := .escape }, [])
    else
      let s := s.pushText byte
      if isFinal byte then { s with scan := .ground }.flushTextWhenLarge
      else if s.maxUnitBytes < s.text.length - s.csiStart then
        ({ { s with text := s.text.take s.csiStart }.clearMark with scan := .csiDiscard }, [])
      else (s, [])
  | .csiDiscard =>
    if byte = esc then ({ s.pushText esc with scan := .escape }, [])
    else if isFinal byte then ({ s with scan := .ground }, [])
    else (s, [])
  | .string =>
    if byte = esc then ({ s.pushString esc with scan := .stringEscape }, [])
    else if byte = bel ∧ s.introducer = ']'.toUInt8 then (s.pushString bel).finishString
    else ((s.pushString byte).classify, [])
  | .stringEscape =>
    if byte = '\\'.toUInt8 then (s.pushString byte).finishString
    else
      -- The string is cancelled, and the byte is looked at again after the escape.
      let s := { s with string := [], stringMark := none, poisoned := false, classified := true, scan := .escape }
      (s.pushText esc).escapeByte byte

def pushBytes (s : VtUnitSplitter) : List UInt8 → VtUnitSplitter × List VtUnit
  | [] => (s, [])
  | byte :: bytes =>
    let (s, out) := s.pushByte byte
    let (s, rest) := s.pushBytes bytes
    (s, out ++ rest)

def push (s : VtUnitSplitter) (sequence : Nat) (bytes : List UInt8) : VtUnitSplitter × List VtUnit :=
  let (s, out) := { s with sequence }.pushBytes bytes
  if s.scan = .ground then
    let (s, rest) := s.flushText
    (s, out ++ rest)
  else (s, out)

end VtUnitSplitter
end Ferryx.Terminal
