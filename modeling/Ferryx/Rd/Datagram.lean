import Ferryx.Lib.BitBlocks
import Ferryx.Lib.System
import Ferryx.Rd.Packet

/-! # Protected datagrams (`ferryx-rd-net/src/udp_gcm.rs`)

AES-256-GCM and HKDF are parameters. Counters are natural numbers below `2 ^ 64`. -/

namespace Ferryx.Rd
open Lib Std

def nonceSize : Nat := 12
def tagSize : Nat := 16
def replayWindowSize : Nat := 4096

inductive Direction where
  | clientToHost
  | hostToClient
  deriving DecidableEq, Repr

def Direction.info : Direction → List UInt8
  | .clientToHost => "erd/udp-c2h/v3".toList.map Char.toUInt8
  | .hostToClient => "erd/udp-h2c/v3".toList.map Char.toUInt8

inductive DatagramError where
  | invalidMasterKey
  | invalidSessionSalt
  | counterExhausted
  | truncated
  | wrongDirection
  | replay
  | authentication
  | invalidHeader (e : CodecError)
  deriving DecidableEq, Repr

/-- The primitives: a cipher with keys `K` that opens what it sealed, and a derivation of keys. -/
class Aead (K : Type) where
  newFromSlice : List UInt8 → K
  hkdfSha256 (ikm salt info : List UInt8) (length : Nat) : { bs : List UInt8 // bs.length = length }
  /-- The ciphertext and the tag, for a nonce, the associated data and the plaintext. -/
  encrypt : K → List UInt8 → List UInt8 → List UInt8 → Option (List UInt8 × { bs : List UInt8 // bs.length = tagSize })
  decrypt : K → List UInt8 → List UInt8 → List UInt8 → Option (List UInt8)
  decrypt_encrypt : ∀ {k nonce aad plaintext ciphertext tag},
    encrypt k nonce aad plaintext = some (ciphertext, tag) → decrypt k nonce aad (ciphertext ++ tag.1) = some plaintext

structure ReplayWindow where
  highestReceived : Nat := 0
  receivedAny : Bool := false
  blocks : BitBlocks := ∅

namespace ReplayWindow

def canAccept (w : ReplayWindow) (counter : Nat) : Bool :=
  if w.receivedAny && counter < w.highestReceived && w.highestReceived - counter ≥ replayWindowSize then false
  else
    let mask := 1 <<< (counter % 64)
    w.blocks[counter / 64]?.all fun seen => seen &&& mask == 0

def oldestBlock (highest : Nat) : Nat := (highest - (replayWindowSize - 1)) / 64

def record (w : ReplayWindow) (counter : Nat) : ReplayWindow :=
  let blocks := w.blocks.insert counter
  let highest := if !w.receivedAny || counter > w.highestReceived then counter else w.highestReceived
  let blocks := if oldestBlock highest > oldestBlock w.highestReceived then blocks.since (oldestBlock highest) else blocks
  { highestReceived := highest, receivedAny := true, blocks }

end ReplayWindow

structure DatagramCipher (K : Type) where
  cipher : K
  noncePrefix : { bs : List UInt8 // bs.length = 4 }
  sendCounter : Nat := 0
  replay : ReplayWindow := {}

namespace DatagramCipher
variable {K : Type} [Aead K]

def derive (masterKey sessionSalt : List UInt8) (direction : Direction) : Except DatagramError (DatagramCipher K) :=
  if masterKey.length ≠ 32 then .error .invalidMasterKey
  else if sessionSalt.length ≠ 16 then .error .invalidSessionSalt
  else
    let udpIkm := Aead.hkdfSha256 K masterKey sessionSalt ("erd/udp-ikm/v3".toList.map Char.toUInt8) 32
    let key := Aead.hkdfSha256 K udpIkm.1 sessionSalt direction.info 32
    let nonceInfo := direction.info ++ "/nonce".toList.map Char.toUInt8
    .ok { cipher := Aead.newFromSlice key.1, noncePrefix := Aead.hkdfSha256 K udpIkm.1 sessionSalt nonceInfo 4 }

def nonce (c : DatagramCipher K) (counter : Nat) : List UInt8 := c.noncePrefix.1 ++ beBytes 8 counter

def sealInto (c : DatagramCipher K) (plaintext aad output : List UInt8) :
    DatagramCipher K × List UInt8 × Except DatagramError Unit :=
  if c.sendCounter + 1 ≥ 2 ^ 64 then (c, output, .error .counterExhausted)
  else
    let c := { c with sendCounter := c.sendCounter + 1 }
    match Aead.encrypt c.cipher (c.nonce c.sendCounter) aad plaintext with
    | some (ciphertext, tag) => (c, output ++ c.nonce c.sendCounter ++ ciphertext ++ tag.1, .ok ())
    | none => (c, output, .error .authentication)

def openSealed (c : DatagramCipher K) (bytes aad : List UInt8) : DatagramCipher K × Except DatagramError (List UInt8) :=
  if bytes.length < nonceSize + tagSize then (c, .error .truncated)
  else if bytes.take 4 ≠ c.noncePrefix.1 then (c, .error .wrongDirection)
  else
    let counter := beValue ((bytes.take nonceSize).drop 4)
    if !c.replay.canAccept counter then (c, .error .replay)
    else match Aead.decrypt c.cipher (bytes.take nonceSize) aad (bytes.drop nonceSize) with
      | none => (c, .error .authentication)
      | some plaintext => ({ c with replay := c.replay.record counter }, .ok plaintext)

def sealDatagram (c : DatagramCipher K) (header : PacketHeader) (payload : List UInt8) :
    DatagramCipher K × Except DatagramError (List UInt8) :=
  match c.sealInto payload header.toBytes header.toBytes with
  | (c, datagram, .ok ()) => (c, .ok datagram)
  | (c, _, .error e) => (c, .error e)

def openDatagram (c : DatagramCipher K) (datagram : List UInt8) :
    DatagramCipher K × Except DatagramError (PacketHeader × List UInt8) :=
  if datagram.length < PacketHeader.size + nonceSize + tagSize then (c, .error .truncated)
  else
    let headerBytes := datagram.take PacketHeader.size
    match PacketHeader.decode headerBytes with
    | .error e => (c, .error (.invalidHeader e))
    | .ok header => match c.openSealed (datagram.drop PacketHeader.size) headerBytes with
      | (c, .error e) => (c, .error e)
      | (c, .ok payload) => (c, .ok (header, payload))

end DatagramCipher

structure SealedDatagram where
  counter : Nat
  header : PacketHeader
  payload : List UInt8
  datagram : List UInt8

structure OpenedDatagram where
  counter : Nat
  header : PacketHeader
  payload : List UInt8
  deriving DecidableEq

/-- The ciphers of one direction at both ends. The other fields record the past; no step reads them. -/
structure DatagramLink (K : Type) where
  sender : DatagramCipher K
  receiver : DatagramCipher K
  past : List SealedDatagram := []
  nonces : List (List UInt8) := []
  returned : List OpenedDatagram := []

inductive DatagramAction where
  | send (header : PacketHeader) (payload : List UInt8)
  | present (datagram : List UInt8)

namespace DatagramLink
variable {K : Type} [Aead K]

def nonceOf (datagram : List UInt8) : List UInt8 := (datagram.drop PacketHeader.size).take nonceSize
def counterOf (datagram : List UInt8) : Nat := beValue ((nonceOf datagram).drop 4)

def step (w : DatagramLink K) : DatagramAction → DatagramLink K
  | .send header payload =>
    let nonces := if w.sender.sendCounter + 1 ≥ 2 ^ 64 then w.nonces else w.nonces ++
        [w.sender.nonce (w.sender.sendCounter + 1)]
    match w.sender.sealDatagram header payload with
    | (sender, .ok datagram) =>
      { w with sender, nonces, past := w.past ++ [⟨sender.sendCounter, header, payload, datagram⟩] }
    | (sender, .error _) => { w with sender, nonces }
  | .present datagram => match w.receiver.openDatagram datagram with
    | (receiver, .ok (header, payload)) =>
      { w with receiver, returned := w.returned ++ [⟨counterOf datagram, header, payload⟩] }
    | (receiver, .error _) => { w with receiver }

end DatagramLink

/-- Both ends derive their cipher from the same secrets; any bytes may be presented at any time. -/
def datagramLink (K : Type) [Aead K] : System (DatagramLink K) DatagramAction where
  init w := ∃ masterKey sessionSalt direction c, DatagramCipher.derive masterKey sessionSalt direction = .ok c ∧
    w = { sender := c, receiver := c }
  step w a w' := w' = w.step a

end Ferryx.Rd
