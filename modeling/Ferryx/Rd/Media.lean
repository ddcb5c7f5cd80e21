import Mathlib

/-! # Encoded frames (`ferryx-rd-proto/src/media.rs`, `ferryx-rd-app/src/media.rs`) -/

namespace Ferryx.Rd

structure FrameHeader where
  frameId : UInt32
  width : UInt16
  height : UInt16
  isKeyFrame : Bool
  totalChunks : UInt16
  totalSize : UInt32
  deriving DecidableEq, Repr

structure AssembledFrame where
  header : FrameHeader
  data : List UInt8
  timestampMs : UInt32
  deriving DecidableEq, Repr

end Ferryx.Rd
