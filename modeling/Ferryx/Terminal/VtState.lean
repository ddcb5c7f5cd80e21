import Ferryx.Terminal.VtStream

/-! # The state that evicted output leaves behind (`terminal/vt_state.rs`)

Retention drops the oldest bytes. The recorder folds what they set into a prelude, which is replayed before the bytes
that are left. -/

namespace Ferryx.Terminal

def maxCsiParameterBytes : Nat := 1024

def trackedPrivateModes : List Nat := [1, 7, 25, 1000, 1002, 1003, 1004, 1005, 1006, 1049, 2004]

structure TerminalStatePrelude where
  sgr : List (List UInt8) := []
  privateModes : List (Nat × Bool) := []
  utf8Charset : Bool := false
  deriving DecidableEq

def TerminalStatePrelude.encode (p : TerminalStatePrelude) : List UInt8 :=
  (if p.utf8Charset then [esc] ++ ascii "%G" else []) ++
  (p.privateModes.flatMap fun (mode, enabled) => [esc] ++ ascii "[?" ++ ascii (toString mode) ++
    ascii (if enabled then "h" else "l")) ++
  if p.sgr = [] then [] else [esc] ++ ascii "[0m" ++ p.sgr.flatMap fun params => [esc] ++ ascii "[" ++ params ++ ascii "m"

inductive StateScan where
  | ground
  | escape
  | csi
  | string
  | stringEscape
  | charset
  deriving DecidableEq

structure TerminalStateRecorder where
  scan : StateScan := .ground
  params : List UInt8 := []
  paramsOverflowed : Bool := false
  isPrivate : Bool := false
  sgr : List (List UInt8) := []
  privateModes : List (Nat × Bool) := []
  utf8Charset : Bool := false
  deriving DecidableEq

def sgrGroup (code : Nat) : Option Nat :=
  if code ∈ [1, 22] then some 1
  else if code = 2 then some 2
  else if code ∈ [3, 20, 23] then some 3
  else if code ∈ [4, 21, 24] then some 4
  else if code ∈ [5, 6, 25] then some 5
  else if code ∈ [7, 27] then some 7
  else if code ∈ [8, 28] then some 8
  else if code ∈ [9, 29] then some 9
  else if 10 ≤ code ∧ code ≤ 19 then some 10
  else if 30 ≤ code ∧ code ≤ 39 ∨ 90 ≤ code ∧ code ≤ 97 then some 30
  else if 40 ≤ code ∧ code ≤ 49 ∨ 100 ≤ code ∧ code ≤ 107 then some 40
  else if code ∈ [51, 52, 54] then some 51
  else if code ∈ [53, 55] then some 53
  else if code ∈ [58, 59] then some 58
  else if 60 ≤ code ∧ code ≤ 65 then some 60
  else if 73 ≤ code ∧ code ≤ 75 then some 73
  else none

def isDigit (byte : UInt8) : Bool := 0x30 ≤ byte && byte ≤ 0x39

/-- A `u16` in decimal, without a sign: the parameters hold digits and separators only. -/
def parseU16 (bytes : List UInt8) : Option Nat :=
  if bytes ≠ [] ∧ bytes.all isDigit then
    let value := bytes.foldl (fun n b => 10 * n + (b.toNat - 0x30)) 0
    if value < 2 ^ 16 then some value else none
  else none

namespace TerminalStateRecorder

def prelude (r : TerminalStateRecorder) : TerminalStatePrelude := ⟨r.sgr, r.privateModes, r.utf8Charset⟩

def sgrCount (code : Nat) (field : List UInt8) (next : Option (List UInt8)) : Nat :=
  if code ∈ [38, 48, 58] ∧ ¬field.contains ':'.toUInt8 then
    if next = some (ascii "5") then 3 else if next = some (ascii "2") then 5 else 1
  else 1

def replaceSgr (sgr : List (List UInt8)) (group code : Nat) (params : List UInt8) : List (List UInt8) :=
  let groupOf (prior : List UInt8) : Option Nat :=
    (parseU16 (prior.takeWhile fun b => b ≠ ';'.toUInt8 ∧ b ≠ ':'.toUInt8)).bind sgrGroup
  let kept := sgr.filter (groupOf · ≠ some group)
  (if code = 22 then kept.filter (· ≠ ascii "2") else kept) ++ [params]

def applyFields : Nat → List (List UInt8) → List (List UInt8) → List (List UInt8)
  | 0, _, sgr | _, [], sgr => sgr
  | fuel + 1, field :: fields, sgr =>
    let code := (parseU16 (field.takeWhile (· ≠ ':'.toUInt8))).getD 0
    if code = 0 then applyFields fuel fields []
    else
      let taken := (field :: fields).take (sgrCount code field fields.head?)
      let sgr := match sgrGroup code with
        | some group => replaceSgr sgr group code ([';'.toUInt8].intercalate taken)
        | none => sgr
      applyFields fuel (fields.drop (taken.length - 1)) sgr

def applySgr (r : TerminalStateRecorder) : TerminalStateRecorder :=
  let fields := r.params.splitOn ';'.toUInt8
  if fields.all fun p => p = ascii "0" ∨ p = [] then { r with params := [], sgr := [] }
  else { r with params := [], sgr := applyFields fields.length fields r.sgr }

def setMode (modes : List (Nat × Bool)) (mode : Nat) (enabled : Bool) : List (Nat × Bool) :=
  if modes.any (·.1 = mode) then modes.map fun e => if e.1 = mode then (mode, enabled) else e else modes ++
    [(mode, enabled)]

def applyPrivateMode (r : TerminalStateRecorder) (enabled : Bool) : TerminalStateRecorder :=
  let modes := (r.params.splitOn ';'.toUInt8).filterMap parseU16
  { r with
    params := []
    privateModes := (modes.filter (· ∈ trackedPrivateModes)).foldl (fun known mode => setMode known mode enabled)
      r.privateModes }

def dispatchCsi (r : TerminalStateRecorder) (final : UInt8) : TerminalStateRecorder :=
  if final = 'm'.toUInt8 ∧ ¬r.isPrivate then r.applySgr
  else if (final = 'h'.toUInt8 ∨ final = 'l'.toUInt8) ∧ r.isPrivate then r.applyPrivateMode (final = 'h'.toUInt8)
  else r

def observeByte (r : TerminalStateRecorder) (byte : UInt8) : TerminalStateRecorder :=
  match r.scan with
  | .ground => if byte = esc then { r with scan := .escape } else r
  | .escape =>
    if byte = '['.toUInt8 then { r with params := [], paramsOverflowed := false, isPrivate := false, scan := .csi }
    else if byte ∈ ['_', 'P', ']', '^', 'X'].map Char.toUInt8 then { r with scan := .string }
    else if byte = '%'.toUInt8 then { r with scan := .charset }
    else if byte = 'c'.toUInt8 then { r with sgr := [], privateModes := [], utf8Charset := false, scan := .ground }
    else if byte = esc then r
    else { r with scan := .ground }
  | .csi =>
    if byte = '?'.toUInt8 ∧ r.params = [] then { r with isPrivate := true }
    else if isDigit byte ∨ byte = ';'.toUInt8 ∨ byte = ':'.toUInt8 then
      if r.params.length < maxCsiParameterBytes then { r with params := r.params ++ [byte] }
        else { r with paramsOverflowed := true }
    else if VtUnitSplitter.isFinal byte then { (if r.paramsOverflowed then r else r.dispatchCsi byte) with scan := .ground }
    else if byte = esc then { r with scan := .escape }
    else r
  | .string => if byte = esc then { r with scan := .stringEscape } else if byte = bel then { r with scan := .ground } else r
  | .stringEscape => { r with scan := if byte = '\\'.toUInt8 then .ground else .string }
  | .charset => { r with utf8Charset := r.utf8Charset || byte = 'G'.toUInt8, scan := .ground }

def observe (r : TerminalStateRecorder) (bytes : List UInt8) : TerminalStateRecorder := bytes.foldl observeByte r

end TerminalStateRecorder
end Ferryx.Terminal
