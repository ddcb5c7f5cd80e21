import Ferryx.Lib.BigEndian

/-! # Frames on a TCP stream (`ferryx-rd-proto/src/framing.rs`) -/

namespace Ferryx.Rd
open Lib

def maxTcpFrameSize : Nat := 16 * 1024 * 1024

structure InvalidFrameLength where
  length : Nat

def TcpFrameWriter.encode (payload : List UInt8) : Except InvalidFrameLength (List UInt8) :=
  if payload.length = 0 ∨ payload.length > maxTcpFrameSize then .error ⟨min payload.length (2 ^ 32 - 1)⟩
  else .ok (leBytes 4 payload.length ++ payload)

inductive TcpFrameEvent where
  | frame (payload : List UInt8)
  | droppedInvalidLength (length : Nat)

structure TcpFrameReader where
  buffer : List UInt8 := []

namespace TcpFrameReader

/-- The end of `push`: the scanned bytes leave the buffer at once. -/
def compact (buffer : List UInt8) (offset : Nat) : List UInt8 :=
  if offset = buffer.length then [] else if offset > 0 then buffer.drop offset else buffer

def scan (buffer : List UInt8) (offset : Nat) (events : List TcpFrameEvent) : TcpFrameReader × List TcpFrameEvent :=
  if buffer.length - offset ≥ 4 then
    let length := leValue ((buffer.drop offset).take 4)
    if length = 0 ∨ length > maxTcpFrameSize then ({}, events ++ [.droppedInvalidLength length])
    else
      let frameEnd := 4 + length
      if buffer.length - offset < frameEnd then (⟨compact buffer offset⟩, events)
      else scan buffer (offset + frameEnd) (events ++ [.frame ((buffer.drop (offset + 4)).take length)])
  else (⟨compact buffer offset⟩, events)
termination_by buffer.length - offset

def push (r : TcpFrameReader) (input : List UInt8) : TcpFrameReader × List TcpFrameEvent := scan (r.buffer ++ input) 0 []

def pushes (r : TcpFrameReader) : List (List UInt8) → TcpFrameReader × List TcpFrameEvent
  | [] => (r, [])
  | input :: inputs => (((r.push input).1.pushes inputs).1, (r.push input).2 ++ ((r.push input).1.pushes inputs).2)

end TcpFrameReader
end Ferryx.Rd
