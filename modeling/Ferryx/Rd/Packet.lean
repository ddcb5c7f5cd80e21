import Ferryx.Lib.Decoder

/-! # Packets (`ferryx-rd-proto/src/codec.rs`, `ferryx-rd-proto/src/packet.rs`)

Numbers are little-endian. Of the errors of the codec, only those of the modelled decoders are listed. -/

namespace Ferryx.Rd
open Lib Decoder

inductive CodecError where
  | truncated (field : String) (needed remaining : Nat)
  | invalidMagic (found : UInt16)
  | unknownPacketType (value : UInt8)
  | lengthLimit (field : String) (actual max : Nat)
  | invalidValue (field : String) (value : Nat)
  | trailingBytes (field : String) (remaining : Nat)
  deriving DecidableEq, Repr

abbrev Reader (α : Type) := Decoder CodecError α

namespace Reader

def take (n : Nat) (field : String) : Reader (List UInt8) := fun s =>
  if s.length < n then .error (.truncated field n s.length) else .ok (s.take n, s.drop n)

def finish (field : String) : Reader Unit := fun s =>
  if s.length = 0 then .ok ((), s) else .error (.trailingBytes field s.length)

def u8 (field : String) : Reader UInt8 := do
  let bs ← take 1 field
  pure (.ofNat (leValue bs))

def u16 (field : String) : Reader UInt16 := do
  let bs ← take 2 field
  pure (.ofNat (leValue bs))

def u32 (field : String) : Reader UInt32 := do
  let bs ← take 4 field
  pure (.ofNat (leValue bs))

theorem take_append {n : Nat} {s : List UInt8} (hs : s.length = n) (field : String) (rest : List UInt8) :
    take n field (s ++ rest) = .ok (s, rest) := by
  subst hs
  simp [take]

theorem u8_append (v : UInt8) (field : String) (rest : List UInt8) : u8 field (v :: rest) = .ok (v, rest) := by
  rw [u8, bind_of_ok (show take 1 field (v :: rest) = .ok ([v], rest) from take_append (s := [v]) rfl field rest)]
  show Except.ok (UInt8.ofNat (leValue [v]), rest) = _
  simp [leValue, beValue]

theorem u16_append (v : UInt16) (field : String) (rest : List UInt8) :
    u16 field (leBytes 2 v.toNat ++ rest) = .ok (v, rest) := by
  rw [u16, bind_of_ok (take_append (length_leBytes ..) field rest), leValue_leBytes,
    Nat.mod_eq_of_lt (show v.toNat < 256 ^ 2 from v.toNat_lt), UInt16.ofNat_toNat]
  rfl

theorem u32_append (v : UInt32) (field : String) (rest : List UInt8) :
    u32 field (leBytes 4 v.toNat ++ rest) = .ok (v, rest) := by
  rw [u32, bind_of_ok (take_append (length_leBytes ..) field rest), leValue_leBytes,
    Nat.mod_eq_of_lt (show v.toNat < 256 ^ 4 from v.toNat_lt), UInt32.ofNat_toNat]
  rfl

end Reader

inductive PacketType where
  | handshake | handshakeAck | frameHeader | frameChunk | cursorUpdate | inputEvent | control | ping | audioFrame
  | pairingRequest | pairingGrant | pairingReject | frameParity | frameNack | inputBatch | cursorShape
  deriving DecidableEq, Repr

namespace PacketType

def code : PacketType → UInt8
  | handshake => 0 | handshakeAck => 1 | frameHeader => 2 | frameChunk => 3 | cursorUpdate => 4 | inputEvent => 5
  | control => 6 | ping => 7 | audioFrame => 8 | pairingRequest => 9 | pairingGrant => 10 | pairingReject => 11
  | frameParity => 12 | frameNack => 13 | inputBatch => 14 | cursorShape => 15

def all : List PacketType :=
  [handshake, handshakeAck, frameHeader, frameChunk, cursorUpdate, inputEvent, control, ping, audioFrame,
    pairingRequest, pairingGrant, pairingReject, frameParity, frameNack, inputBatch, cursorShape]

def tryFrom (value : UInt8) : Except CodecError PacketType :=
  match all.find? fun t => t.code = value with
  | some t => .ok t
  | none => .error (.unknownPacketType value)

theorem tryFrom_code (t : PacketType) : tryFrom t.code = .ok t := by cases t <;> rfl

theorem lift_tryFrom_code (t : PacketType) (s : List UInt8) : (liftM (tryFrom t.code) : Reader PacketType) s =
    .ok (t, s) := by
  rw [tryFrom_code]
  rfl

end PacketType

def magic : UInt16 := 0xec1d

structure PacketHeader where
  packetType : PacketType
  sequence : UInt32
  timestampMs : UInt32
  flags : UInt8
  deriving DecidableEq, Repr

namespace PacketHeader

def size : Nat := 12

def toBytes (h : PacketHeader) : List UInt8 :=
  leBytes 2 magic.toNat ++
    (h.packetType.code :: (leBytes 4 h.sequence.toNat ++ (leBytes 4 h.timestampMs.toNat ++ [h.flags])))

def read : Reader PacketHeader := do
  let found ← Reader.u16 "packet magic"
  Decoder.check (if found ≠ magic then .error (.invalidMagic found) else .ok ())
  let value ← Reader.u8 "packet type"
  let packetType ← liftM (PacketType.tryFrom value)
  let sequence ← Reader.u32 "packet sequence"
  let timestampMs ← Reader.u32 "packet timestamp"
  let flags ← Reader.u8 "packet flags"
  Reader.finish "packet header"
  pure { packetType, sequence, timestampMs, flags }

def decode (input : List UInt8) : Except CodecError PacketHeader := (read input).map Prod.fst

@[simp] theorem length_toBytes (h : PacketHeader) : h.toBytes.length = size := by simp [toBytes, size]

theorem decode_toBytes (h : PacketHeader) : decode h.toBytes = .ok h := by
  have hread : read h.toBytes = .ok (h, []) := by
    unfold read toBytes
    rw [bind_of_ok (Reader.u16_append _ _ _),
      bind_of_ok (check_ok (u := ()) |>.mpr ⟨rfl, rfl⟩), bind_of_ok (Reader.u8_append _ _ _),
      bind_of_ok (PacketType.lift_tryFrom_code _ _), bind_of_ok (Reader.u32_append _ _ _),
      bind_of_ok (Reader.u32_append _ _ _), bind_of_ok (Reader.u8_append _ _ _)]
    rfl
  rw [decode, hread]
  rfl

end PacketHeader
end Ferryx.Rd
