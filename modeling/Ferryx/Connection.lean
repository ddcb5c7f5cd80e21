import Ferryx.Fxsh.Frame

/-! # The read loop of a connection (`ferryx-host/src/conn.rs`)

After each read, frames are decoded and drained from the buffer until it holds no whole frame. The first frame has to be a
`Hello` that the host accepts, and there is no second one. What the host does with the other frames, and a writer that
closes the outbox, are left out. -/

namespace Ferryx.Fxsh

/-- All of the five capabilities (`CAP_V1_REQUIRED`). -/
def capV1Required : UInt64 := 0x1f

/-- Why the loop leaves the connection. -/
inductive ConnEnd where
  | fatal (e : FatalFrameError)
  | violation (reason : Reason)
  | versionUnsupported
  | unsupportedCapability (bit : Nat)
  | helloExpected
  | duplicateHello
  deriving DecidableEq

/-- The tests of a `Hello`; the error names the first capability that the client lacks. -/
def acceptHello (h : Hello) : Except ConnEnd Unit :=
  if h.major ≠ major then .error .versionUnsupported
  else
    let lacks (bit : Nat) : Bool := capV1Required.toNat.testBit bit && !h.capabilities.toNat.testBit bit
    match (List.range 5).find? lacks with
    | some bit => .error (.unsupportedCapability bit)
    | none => .ok ()

/-- What the loop does with a result of `decode_frame`, where `helloDone` says whether there was a `Hello`. -/
def takeDecoded (helloDone : Bool) : Decoded → Except ConnEnd Bool
  | .needMore => .ok helloDone
  | .rejected _ _ (.unknownCommand _) => .ok helloDone
  | .rejected _ _ (.violation reason) => .error (.violation reason)
  | .frame _ _ frame =>
    match helloDone, frame.message with
    | false, .hello h => do
      acceptHello h
      pure true
    | false, _ => .error .helloExpected
    | true, .hello _ => .error .duplicateHello
    | true, _ => .ok true

/-- The results that the inner loop gets from the buffer, up to the one that ends the connection, and what is left. -/
def drainFrames (helloDone : Bool) (buf : List UInt8) : List Decoded × Except ConnEnd (Bool × List UInt8) :=
  match _hd : decodeFrame buf with
  | .error e => ([], .error (.fatal e))
  | .ok d =>
    if _hfull : d = .needMore then ([], .ok (helloDone, buf))
    else match takeDecoded helloDone d with
      | .error e => ([d], .error e)
      | .ok helloDone =>
        let r := drainFrames helloDone (buf.drop d.consumed)
        (d :: r.1, r.2)
termination_by buf.length
decreasing_by
  obtain ⟨hle, h, -, hcons, -⟩ := decodeFrame_full _hd _hfull
  have hpos : 0 < headerLen := by decide
  rw [List.length_drop]
  omega

/-- The outer loop: a read follows when the buffer is drained. -/
def readStream (helloDone : Bool) (buf : List UInt8) : List (List UInt8) → List Decoded × Except ConnEnd (Bool × List UInt8)
  | [] => drainFrames helloDone buf
  | chunk :: chunks =>
    match drainFrames helloDone buf with
    | (ds, .error e) => (ds, .error e)
    | (ds, .ok (helloDone, rest)) =>
      let r := readStream helloDone (rest ++ chunk) chunks
      (ds ++ r.1, r.2)

end Ferryx.Fxsh
