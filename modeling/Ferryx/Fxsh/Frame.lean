import Ferryx.Fxsh.Messages

/-! # Frames of FXSH (`fxsh/src/frame.rs`) -/

namespace Ferryx.Fxsh
open Lib

def magic : UInt32 := 0x46585348

def major : UInt16 := 1

def minor : UInt16 := 0

def headerLen : Nat := 40

def maxPayload : Nat := 16 * 1024 * 1024

def flagResponse : UInt16 := (1 : UInt16) <<< 0

def flagError : UInt16 := (1 : UInt16) <<< 1

def flagEvent : UInt16 := (1 : UInt16) <<< 2

def flagDefined : UInt16 := flagResponse ||| flagError ||| flagEvent

structure Header where
  major : UInt16
  minor : UInt16
  command : UInt16
  flags : UInt16
  sessionId : Uuid
  requestId : UInt64
  payloadLen : UInt32
  deriving DecidableEq

inductive FatalFrameError where
  | badMagic
  | payloadTooLarge (len : UInt32)
  | undefinedFlags (flags : UInt16)
  | truncated
  deriving DecidableEq, Repr

namespace Header

def encode (h : Header) : List UInt8 :=
  putU32 magic ++ putU16 h.major ++ putU16 h.minor ++ putU16 h.command ++ putU16 h.flags ++ h.sessionId.bytes.val ++
    putU64 h.requestId ++ putU32 h.payloadLen

def valueAt (b : List UInt8) (o n : Nat) : Nat := beValue ((b.drop o).take n)

def decode (b : List UInt8) (h : b.length = headerLen) : Except FatalFrameError Header :=
  if UInt32.ofNat (valueAt b 0 4) ≠ magic then .error .badMagic
  else
    let flags := UInt16.ofNat (valueAt b 10 2)
    if flags &&& ~~~flagDefined ≠ 0 then .error (.undefinedFlags flags)
    else
      let payloadLen := UInt32.ofNat (valueAt b 36 4)
      if maxPayload < payloadLen.toNat then .error (.payloadTooLarge payloadLen)
      else .ok {
        major := .ofNat (valueAt b 4 2)
        minor := .ofNat (valueAt b 6 2)
        command := .ofNat (valueAt b 8 2)
        flags
        sessionId := ⟨⟨(b.drop 12).take 16, by rw [List.length_take, List.length_drop, h]; rfl⟩⟩
        requestId := .ofNat (valueAt b 28 8)
        payloadLen }

end Header

structure Frame where
  sessionId : Uuid
  requestId : UInt64
  flags : UInt16
  message : Message
  deriving DecidableEq

namespace Frame

def header (f : Frame) : Header :=
  ⟨Fxsh.major, Fxsh.minor, f.message.command, f.flags, f.sessionId, f.requestId, .ofNat f.message.encodePayload.length⟩

/-- A payload larger than `maxPayload` stops the source. -/
def encode (f : Frame) : Option (List UInt8) :=
  if f.message.encodePayload.length ≤ maxPayload then some (f.header.encode ++ f.message.encodePayload) else none

end Frame

inductive Decoded where
  | needMore
  | frame (consumed : Nat) (header : Header) (frame : Frame)
  | rejected (consumed : Nat) (header : Header) (error : PayloadError)
  deriving DecidableEq

def decodeFrame (buf : List UInt8) : Except FatalFrameError Decoded :=
  if hlen : headerLen ≤ buf.length then do
    let header ← Header.decode (buf.take headerLen) (List.length_take_of_le hlen)
    let total := headerLen + header.payloadLen.toNat
    if buf.length < total then pure .needMore
    else
      let payload := (buf.take total).drop headerLen
      match Message.decodePayload header.command payload with
      | .ok message => pure (.frame total header ⟨header.sessionId, header.requestId, header.flags, message⟩)
      | .error error => pure (.rejected total header error)
  else .ok .needMore

def decodeCompleteFrame (buf : List UInt8) : Except FatalFrameError Decoded := do
  match ← decodeFrame buf with
  | .needMore => throw .truncated
  | d => pure d

def decodedAs (h : Header) (payload : List UInt8) : Decoded :=
  match Message.decodePayload h.command payload with
  | .ok message => .frame (headerLen + payload.length) h ⟨h.sessionId, h.requestId, h.flags, message⟩
  | .error error => .rejected (headerLen + payload.length) h error

def Decoded.consumed : Decoded → Nat
  | .needMore => 0
  | .frame consumed .. => consumed
  | .rejected consumed .. => consumed

theorem decodedAs_ne_needMore (h : Header) (payload : List UInt8) : decodedAs h payload ≠ .needMore := by
  unfold decodedAs
  split <;> exact fun h => nomatch h

@[simp] theorem consumed_decodedAs (h : Header) (payload : List UInt8) : (decodedAs h payload).consumed = headerLen +
    payload.length := by
  unfold decodedAs
  split <;> rfl

theorem decodeFrame_of_header {buf : List UInt8} (hle : headerLen ≤ buf.length) {h : Header}
    (hdec : Header.decode (buf.take headerLen) (List.length_take_of_le hle) = .ok h) :
    decodeFrame buf = .ok (if buf.length < headerLen + h.payloadLen.toNat then .needMore
      else decodedAs h ((buf.take (headerLen + h.payloadLen.toNat)).drop headerLen)) := by
  unfold decodeFrame
  rw [dif_pos hle, hdec]
  show (if buf.length < headerLen + h.payloadLen.toNat then _ else _) = _
  split
  · rfl
  next hlt =>
    have hlen : ((buf.take (headerLen + h.payloadLen.toNat)).drop headerLen).length = h.payloadLen.toNat := by
      rw [List.length_drop, List.length_take]
      omega
    unfold decodedAs
    rw [hlen]
    cases Message.decodePayload h.command ((buf.take (headerLen + h.payloadLen.toNat)).drop headerLen) <;> rfl

/-- A frame is only read of a buffer with a valid header, and then it is read whole. -/
theorem decodeFrame_full {buf : List UInt8} {d : Decoded} (hd : decodeFrame buf = .ok d) (hfull : d ≠ .needMore) :
    ∃ (hle : headerLen ≤ buf.length) (h : Header), Header.decode (buf.take headerLen) (List.length_take_of_le hle) = .ok h ∧
      d.consumed = headerLen + h.payloadLen.toNat ∧ d.consumed ≤ buf.length ∧
        d = decodedAs h ((buf.take d.consumed).drop headerLen) := by
  by_cases hle : headerLen ≤ buf.length
  · cases hdec : Header.decode (buf.take headerLen) (List.length_take_of_le hle) with
    | error e =>
      rw [decodeFrame, dif_pos hle, hdec] at hd
      cases hd
    | ok h =>
      rw [decodeFrame_of_header hle hdec, Except.ok.injEq] at hd
      split at hd
      · exact absurd hd.symm hfull
      next hlt =>
        have hcons : d.consumed = headerLen + h.payloadLen.toNat := by
          rw [← hd, consumed_decodedAs, List.length_drop, List.length_take]
          omega
        exact ⟨hle, h, hdec, hcons, by omega, by rw [hcons]; exact hd.symm⟩
  · rw [decodeFrame, dif_neg hle] at hd
    cases hd
    exact absurd rfl hfull

end Ferryx.Fxsh
