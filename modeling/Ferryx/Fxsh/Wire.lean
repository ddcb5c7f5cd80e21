import Ferryx.Lib.Decoder

/-! # The wire format of FXSH (`fxsh/src/wire.rs`)

Numbers are big-endian, strings and lists follow their length, an optional value follows a tag. The `check` of a record runs
after its fields are read. `Codec.ok`: the checks of a value and all its parts pass. -/

namespace Ferryx.Fxsh
open Lib

inductive Reason where
  | badBool | badUtf8 | optCondition | badEnum | badTag | truncated | chunkInconsistent | badOrder | badShape
  deriving DecidableEq, Repr

abbrev DResult (α : Type) := Except Reason α

abbrev Reader (α : Type) := Decoder Reason α

structure Uuid where
  bytes : { bs : List UInt8 // bs.length = 16 }
  deriving DecidableEq

structure Digest where
  bytes : { bs : List UInt8 // bs.length = 16 }
  deriving DecidableEq

/-- A byte string; `Vec<u8>` would be a list of numbers. -/
structure Bytes where
  bytes : List UInt8
  deriving DecidableEq

namespace Reader

def take (n : Nat) : Reader (List UInt8) := Decoder.take .truncated n

def array (n : Nat) : Reader { bs : List UInt8 // bs.length = n } := Decoder.array .truncated n

def u8 : Reader UInt8 := do
  let v ← Decoder.nat .truncated 1
  pure (.ofNat v)

def u16 : Reader UInt16 := do
  let v ← Decoder.nat .truncated 2
  pure (.ofNat v)

def u32 : Reader UInt32 := do
  let v ← Decoder.nat .truncated 4
  pure (.ofNat v)

def u64 : Reader UInt64 := do
  let v ← Decoder.nat .truncated 8
  pure (.ofNat v)

def i32 : Reader Int32 := do
  let v ← u32
  pure v.toInt32

def bool : Reader Bool := do
  match ← u8 with
  | 0 => pure false
  | 1 => pure true
  | _ => throw .badBool

def len : Reader Nat := do
  let n ← u32
  pure n.toNat

def lenPrefixed : Reader (List UInt8) := do
  let n ← len
  take n

def string : Reader String := do
  let raw ← lenPrefixed
  Decoder.ofOption .badUtf8 (String.fromUTF8? ⟨raw.toArray⟩)

def opt {α : Type} (f : Reader α) : Reader (Option α) := do
  match ← u8 with
  | 0 => pure none
  | 1 => do
    let a ← f
    pure (some a)
  | _ => throw .badTag

def list {α : Type} (f : Reader α) : Reader (List α) := do
  let n ← len
  Decoder.times f n

end Reader

def putU8 (v : UInt8) : List UInt8 := [v]

def putU16 (v : UInt16) : List UInt8 := beBytes 2 v.toNat

def putU32 (v : UInt32) : List UInt8 := beBytes 4 v.toNat

def putU64 (v : UInt64) : List UInt8 := beBytes 8 v.toNat

def putI32 (v : Int32) : List UInt8 := putU32 v.toUInt32

def putBool (v : Bool) : List UInt8 := [if v then 1 else 0]

/-- A length or a count. One of `2 ^ 32` or more, which stops the source, makes more than the largest payload. -/
def putLen (n : Nat) : List UInt8 := putU32 (.ofNat n)

def putLenPrefixed (v : List UInt8) : List UInt8 := putLen v.length ++ v

class Codec (α : Type) where
  enc : α → List UInt8
  dec : Reader α
  ok : α → Bool

export Codec (enc dec)

instance : Codec UInt8 := ⟨putU8, Reader.u8, fun _ => true⟩

instance : Codec UInt16 := ⟨putU16, Reader.u16, fun _ => true⟩

instance : Codec UInt32 := ⟨putU32, Reader.u32, fun _ => true⟩

instance : Codec UInt64 := ⟨putU64, Reader.u64, fun _ => true⟩

instance : Codec Int32 := ⟨putI32, Reader.i32, fun _ => true⟩

instance : Codec Bool := ⟨putBool, Reader.bool, fun _ => true⟩

instance : Codec String := ⟨fun s => putLenPrefixed s.toUTF8.data.toList, Reader.string, fun _ => true⟩

instance : Codec Uuid where
  enc v := v.bytes.val
  dec := do
    let bs ← Reader.array 16
    pure ⟨bs⟩
  ok _ := true

instance : Codec Digest where
  enc v := v.bytes.val
  dec := do
    let bs ← Reader.array 16
    pure ⟨bs⟩
  ok _ := true

instance : Codec Bytes where
  enc v := putLenPrefixed v.bytes
  dec := do
    let bs ← Reader.lenPrefixed
    pure ⟨bs⟩
  ok _ := true

section Compound
variable {α β : Type} [Codec α] [Codec β]

instance : Codec (Option α) where
  enc
    | none => putU8 0
    | some v => putU8 1 ++ enc v
  dec := Reader.opt dec
  ok v := v.all Codec.ok

instance : Codec (List α) where
  enc vs := putLen vs.length ++ vs.flatMap enc
  dec := Reader.list dec
  ok vs := vs.all Codec.ok

instance : Codec (α × β) where
  enc v := enc v.1 ++ enc v.2
  dec := do
    let a ← dec
    let b ← dec
    pure (a, b)
  ok v := Codec.ok v.1 && Codec.ok v.2

@[reducible] def Codec.record (fields : β → α) (make : α → β) (check : β → DResult Unit) : Codec β where
  enc v := enc (fields v)
  dec := do
    let t ← dec
    Decoder.check (check (make t))
    pure (make t)
  ok v := Codec.ok (fields v) && (check v).isOk

end Compound

def noCheck {α : Type} (_ : α) : DResult Unit := .ok ()

@[reducible] def Codec.u8Enum {α : Type} (code : α → UInt8) (variants : List α) : Codec α where
  enc v := putU8 (code v)
  dec := do
    let v ← Reader.u8
    Decoder.ofOption .badEnum (variants.find? fun a => code a == v)
  ok _ := true

def Reason.code : Reason → UInt8
  | .badBool => 1
  | .badUtf8 => 2
  | .optCondition => 3
  | .badEnum => 4
  | .badTag => 5
  | .truncated => 6
  | .chunkInconsistent => 7
  | .badOrder => 8
  | .badShape => 9

instance : Codec Reason := .u8Enum Reason.code
  [.badBool, .badUtf8, .optCondition, .badEnum, .badTag, .truncated, .chunkInconsistent, .badOrder, .badShape]

def strictlyAscending {α : Type} (key : α → Nat) : List α → DResult Unit
  | a :: b :: rest => if key b ≤ key a then .error .badOrder else strictlyAscending key (b :: rest)
  | _ => .ok ()

end Ferryx.Fxsh
