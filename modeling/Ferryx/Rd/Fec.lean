import Mathlib

/-! # Interleaved XOR parity (`ferryx-rd-proto/src/fec.rs`)

Indices and counts of chunks are natural numbers. -/

namespace Ferryx.Rd

def maxVideoChunkBytes : Nat := 1382

abbrev ChunkBytes := List (BitVec 8)

structure FrameParity where
  frameId : UInt32
  parityIndex : Nat
  parityCount : Nat
  lengthXor : BitVec 16
  data : ChunkBytes

def stripe (offset stride total : Nat) : List Nat :=
  (List.range total).filter fun i => offset ≤ i && (i - offset) % max stride 1 == 0

def FrameParity.covered (parity : FrameParity) (totalChunks : Nat) : List Nat :=
  stripe parity.parityIndex parity.parityCount totalChunks

def xorInto : ChunkBytes → ChunkBytes → ChunkBytes
  | t :: target, s :: source => (t ^^^ s) :: xorInto target source
  | target, _ => target

def parityAt (frameId : UInt32) (chunks : List ChunkBytes) (parityCount parityIndex : Nat) : FrameParity :=
  let covered := (stripe parityIndex parityCount chunks.length).map (chunks.getD · [])
  let longest := (covered.map List.length).max?.getD 0
  { frameId, parityIndex, parityCount
    lengthXor := covered.foldl (fun length chunk => length ^^^ BitVec.ofNat 16 chunk.length) 0
    data := covered.foldl xorInto (List.replicate longest 0) }

def buildParity (frameId : UInt32) (chunks : List ChunkBytes) (parityCount : Nat) : List FrameParity :=
  (List.range parityCount).map (parityAt frameId chunks parityCount)

structure Recovering where
  missing : Option Nat
  data : ChunkBytes
  length : BitVec 16

def absorb (present : Nat → Option ChunkBytes) (r : Recovering) (index : Nat) : Option Recovering :=
  match present index with
  | some chunk =>
    if chunk.length > r.data.length then none
    else some { r with data := xorInto r.data chunk, length := r.length ^^^ BitVec.ofNat 16 chunk.length }
  | none => if r.missing.isSome then none else some { r with missing := some index }

def recoverChunk (parity : FrameParity) (totalChunks : Nat) (present : Nat → Option ChunkBytes) :
    Option (Nat × ChunkBytes) := do
  let r ← (parity.covered totalChunks).foldlM (absorb present) ⟨none, parity.data, parity.lengthXor⟩
  let index ← r.missing
  let length := r.length.toNat
  if length = 0 || length > r.data.length || (r.data.drop length).any (· != 0) then none
  else some (index, r.data.take length)

end Ferryx.Rd
