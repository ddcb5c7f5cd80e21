import Ferryx.Theorems.FxshCodec

/-! # Messages, error details and frames are read as they are written -/

namespace Ferryx.Fxsh
open Lib List
variable {payload : List UInt8}

namespace Message

section DecodeAs
variable {α : Type} [Codec α] [LawfulCodec α] {wrap : α → Message}

theorem decodeAs_enc {m : α} (hok : Codec.ok m = true) (hlen : (enc m).length < 2 ^ 32) (rest : List UInt8) :
    decodeAs wrap (enc m ++ rest) = .ok (wrap m) := by
  rw [decodeAs, LawfulCodec.inverts.reads hok hlen rest]

theorem decodeAs_ok {msg : Message} (h : decodeAs wrap payload = .ok msg) : ∃ m, msg = wrap m ∧ Codec.ok m = true ∧
    enc m <+: payload := by
  unfold decodeAs at h
  split at h
  next m rest hdec =>
    obtain ⟨hok, rfl⟩ := LawfulCodec.inverts.canonical hdec
    cases h
    exact ⟨m, rfl, hok, List.prefix_append _ _⟩
  · cases h

end DecodeAs

theorem decodePayload_encodePayload {m : Message} (hok : m.ok = true) (hlen : m.encodePayload.length < 2 ^ 32)
    (rest : List UInt8) :
    decodePayload m.command (m.encodePayload ++ rest) = .ok m := by
  cases m <;> first | exact decodeAs_enc hok hlen rest | rfl

theorem decodePayload_ok {command : UInt16} {m : Message} (h : decodePayload command payload = .ok m) :
    m.ok = true ∧ m.command = command ∧ m.encodePayload <+: payload := by
  unfold decodePayload at h
  split at h
  all_goals first
    | obtain ⟨m, rfl, hok, hpre⟩ := decodeAs_ok h
      exact ⟨hok, rfl, hpre⟩
    | cases h
      exact ⟨rfl, rfl, nil_prefix⟩
    | cases h

end Message

section Fields
variable {α β γ δ ρ : Type} [Codec α] [LawfulCodec α] [Codec β] [LawfulCodec β] [Codec γ] [LawfulCodec γ] [Codec δ]
  [LawfulCodec δ]
  {s rest : List UInt8} {d : ρ}

theorem one_field_ok {mk : α → ρ} (h : (do let a ← dec; pure (mk a) : Reader ρ) s = .ok (d, rest)) :
    ∃ a, d = mk a ∧ s = enc a ++ rest := by
  obtain ⟨a, r, -, ha, hp⟩ := canonical_bind h
  obtain ⟨rfl, rfl⟩ := Decoder.pure_ok.mp hp
  exact ⟨a, rfl, ha⟩

theorem two_fields_ok {mk : α → β → ρ} (h : (do let a ← dec; let b ← dec; pure (mk a b) : Reader ρ) s = .ok (d, rest)) :
    ∃ a b, d = mk a b ∧ s = enc a ++ enc b ++ rest := by
  obtain ⟨a, r, -, ha, hr⟩ := canonical_bind h
  obtain ⟨b, rfl, rfl⟩ := one_field_ok hr
  exact ⟨a, b, rfl, by rw [ha, append_assoc]⟩

theorem three_fields_ok {mk : α → β → γ → ρ}
    (h : (do let a ← dec; let b ← dec; let c ← dec; pure (mk a b c) : Reader ρ) s = .ok (d, rest)) :
    ∃ a b c, d = mk a b c ∧ s = enc a ++ enc b ++ enc c ++ rest := by
  obtain ⟨a, r, -, ha, hr⟩ := canonical_bind h
  obtain ⟨b, c, rfl, rfl⟩ := two_fields_ok hr
  exact ⟨a, b, c, rfl, by simp [ha]⟩

theorem four_fields_ok {mk : α → β → γ → δ → ρ}
    (h : (do let a ← dec; let b ← dec; let c ← dec; let e ← dec; pure (mk a b c e) : Reader ρ) s = .ok (d, rest)) :
    ∃ a b c e, d = mk a b c e ∧ s = enc a ++ enc b ++ enc c ++ enc e ++ rest := by
  obtain ⟨a, r, -, ha, hr⟩ := canonical_bind h
  obtain ⟨b, c, e, rfl, rfl⟩ := three_fields_ok hr
  exact ⟨a, b, c, e, rfl, by simp [ha]⟩

end Fields

namespace ErrorDetail
variable {ρ : Type}

theorem read_u8 (v : UInt8) (f : UInt8 → Reader ρ) (rest : List UInt8) : (Reader.u8 >>= f) (putU8 v ++ rest) = f v rest :=
  reads_bind rfl (by simp [enc, putU8]) rest

theorem read_u16 (v : UInt16) (f : UInt16 → Reader ρ) (rest : List UInt8) :
    (Reader.u16 >>= f) (putU16 v ++ rest) = f v rest :=
  reads_bind rfl (by simp [enc, putU16]) rest

theorem read_u64 (v : UInt64) (f : UInt64 → Reader ρ) (rest : List UInt8) :
    (Reader.u64 >>= f) (putU64 v ++ rest) = f v rest :=
  reads_bind rfl (by simp [enc, putU64]) rest

theorem read_scope (v : Scope) (f : Scope → Reader ρ) (rest : List UInt8) : (dec >>= f) (enc v ++ rest) = f v rest :=
  reads_bind rfl (by simp [enc, putU8]) rest

theorem read_reason (v : Reason) (f : Reason → Reader ρ) (rest : List UInt8) : (dec >>= f) (enc v ++ rest) = f v rest :=
  reads_bind rfl (by simp [enc, putU8]) rest

theorem read_operationId (v : OperationId) (f : OperationId → Reader ρ) (rest : List UInt8) :
    (dec >>= f) (enc v ++ rest) = f v rest :=
  reads_bind rfl (by simp [enc, putU64, v.hostInstanceId.bytes.2]) rest

theorem reader_encodeDetail (d : ErrorDetail) (rest : List UInt8) :
    reader d.code (d.encodeDetail ++ rest) = .ok (d, rest) := by
  cases d <;> simp only [code, encodeDetail, reader, append_assoc, read_u8, read_u16, read_u64, read_scope, read_reason,
    read_operationId] <;> rfl

theorem reader_ok {code : UInt16} {s rest : List UInt8} {d : ErrorDetail} (h : reader code s = .ok (d, rest)) :
    d.code = code ∧ s = d.encodeDetail ++ rest := by
  unfold reader at h
  split at h
  case h_6 | h_8 | h_18 | h_21 | h_22 | h_23 =>
    obtain ⟨rfl, rfl⟩ := Decoder.pure_ok.mp h
    exact ⟨rfl, rfl⟩
  case h_2 | h_5 | h_9 | h_10 | h_11 | h_12 | h_14 | h_15 | h_17 | h_19 | h_20 =>
    obtain ⟨a, rfl, rfl⟩ := one_field_ok h
    exact ⟨rfl, rfl⟩
  case h_13 | h_16 =>
    obtain ⟨a, b, rfl, rfl⟩ := two_fields_ok h
    exact ⟨rfl, rfl⟩
  case h_1 | h_3 =>
    obtain ⟨a, b, c, rfl, rfl⟩ := three_fields_ok h
    exact ⟨rfl, rfl⟩
  case h_4 | h_7 =>
    obtain ⟨a, b, c, e, rfl, rfl⟩ := four_fields_ok h
    exact ⟨rfl, rfl⟩
  case h_24 => cases h

end ErrorDetail

namespace Header

@[simp] theorem drop_beBytes {k o : Nat} (h : k ≤ o) (v : Nat) : (beBytes k v).drop o = [] :=
  drop_eq_nil_of_le (by rwa [length_beBytes])

@[simp] theorem take_beBytes (k v : Nat) : (beBytes k v).take k = beBytes k v :=
  take_of_length_le (length_beBytes k v).le

@[simp] theorem length_encode (h : Header) : h.encode.length = headerLen := by
  simp [encode, putU16, putU32, putU64, h.sessionId.bytes.2, headerLen]

theorem valueAt_encode (h : Header) : valueAt h.encode 0 4 = magic.toNat ∧ valueAt h.encode 4 2 = h.major.toNat ∧
    valueAt h.encode 6 2 = h.minor.toNat ∧ valueAt h.encode 8 2 = h.command.toNat ∧ valueAt h.encode 10 2 = h.flags.toNat ∧
    (h.encode.drop 12).take 16 = h.sessionId.bytes.val ∧ valueAt h.encode 28 8 = h.requestId.toNat ∧
    valueAt h.encode 36 4 = h.payloadLen.toNat := by
  obtain ⟨major, minor, command, flags, ⟨id, hid⟩, request, len⟩ := h
  have hid_drop : ∀ o, 16 ≤ o → id.drop o = [] := fun o ho => drop_eq_nil_of_le (hid ▸ ho)
  have h2 : ∀ v : UInt16, beValue (beBytes 2 v.toNat) = v.toNat := fun v =>
    (beValue_beBytes ..).trans (Nat.mod_eq_of_lt v.toNat_lt)
  have h4 : ∀ v : UInt32, beValue (beBytes 4 v.toNat) = v.toNat := fun v =>
    (beValue_beBytes ..).trans (Nat.mod_eq_of_lt v.toNat_lt)
  have h8 : ∀ v : UInt64, beValue (beBytes 8 v.toNat) = v.toNat := fun v =>
    (beValue_beBytes ..).trans (Nat.mod_eq_of_lt v.toNat_lt)
  simp [encode, valueAt, putU16, putU32, putU64, drop_append, hid, hid_drop, h2, h4, h8]

theorem decode_encode {h : Header} (hflags : h.flags &&& ~~~flagDefined = 0) (hmax : h.payloadLen.toNat ≤ maxPayload)
    {b : List UInt8} (hb : b = h.encode) (hlen : b.length = headerLen) : decode b hlen = .ok h := by
  subst hb
  obtain ⟨h0, h4, h6, h8, h10, h12, h28, h36⟩ := h.valueAt_encode
  simp only [decode, h0, h4, h6, h8, h10, h12, h28, h36, UInt32.ofNat_toNat, UInt16.ofNat_toNat, UInt64.ofNat_toNat, ne_eq,
    not_true_eq_false, if_false, hflags, Nat.not_lt.mpr hmax]

end Header

theorem decodeFrame_encode {h : Header} (hflags : h.flags &&& ~~~flagDefined = 0)
    (hlen : h.payloadLen.toNat = payload.length) (hmax : payload.length ≤ maxPayload) (rest : List UInt8) :
    decodeFrame (h.encode ++ payload ++ rest) = .ok (decodedAs h payload) := by
  have hhead : (h.encode ++ payload ++ rest).take headerLen = h.encode := by
    rw [append_assoc, ← h.length_encode, take_left]
  have htotal : headerLen + h.payloadLen.toNat = (h.encode ++ payload).length := by
    rw [length_append, h.length_encode, hlen]
  have hle : headerLen ≤ (h.encode ++ payload ++ rest).length := by
    rw [length_append, ← htotal]
    omega
  have hdec := Header.decode_encode hflags (hlen ▸ hmax) hhead (length_take_of_le hle)
  have hpayload : ((h.encode ++ payload ++ rest).take (h.encode ++ payload).length).drop headerLen = payload := by
    rw [take_left, ← h.length_encode, drop_left]
  unfold decodeFrame
  rw [dif_pos hle, hdec]
  show (if (h.encode ++ payload ++ rest).length < headerLen + h.payloadLen.toNat then _ else _) = _
  rw [htotal, if_neg (by rw [length_append]; omega), hpayload]
  unfold decodedAs
  rw [length_append, h.length_encode]
  cases Message.decodePayload h.command payload <;> rfl

/-- A frame decodes to itself, and what decodes is the encoding of one frame only. -/
theorem codec_canonical :
    (∀ f : Frame, f.message.ok = true → f.flags &&& ~~~flagDefined = 0 → f.message.encodePayload.length ≤ maxPayload →
      ∃ bytes, f.encode = some bytes ∧ decodeCompleteFrame bytes = .ok (.frame bytes.length f.header f)) ∧
    (∀ {command payload m}, Message.decodePayload command payload = .ok m →
      m.ok = true ∧ m.command = command ∧ m.encodePayload <+: payload) ∧
    (∀ d : ErrorDetail, ErrorDetail.decodeDetail d.code d.encodeDetail = .ok d) ∧
    (∀ {code detail d}, ErrorDetail.decodeDetail code detail = .ok d → d.code = code ∧ d.encodeDetail <+: detail) := by
  refine ⟨fun f hok hflags hmax => ?_, fun h => Message.decodePayload_ok h, fun d => ?_, fun {code detail d} h => ?_⟩
  · have hsmall : f.message.encodePayload.length < 2 ^ 32 := Nat.lt_of_le_of_lt hmax (by decide)
    have hread := decodeFrame_encode (h := f.header) hflags (UInt32.toNat_ofNat_of_lt' hsmall) hmax []
    have hm := Message.decodePayload_encodePayload hok hsmall []
    rw [append_nil] at hread hm
    refine ⟨_, if_pos hmax, ?_⟩
    have hread' : decodedAs f.header f.message.encodePayload = .frame (headerLen + f.message.encodePayload.length)
        f.header f := by
      simp only [decodedAs, Frame.header, hm]
    rw [decodeCompleteFrame, hread, hread', length_append, Header.length_encode]
    rfl
  · have hread := d.reader_encodeDetail []
    rw [append_nil] at hread
    rw [ErrorDetail.decodeDetail, hread]
    rfl
  · unfold ErrorDetail.decodeDetail at h
    cases hr : ErrorDetail.reader code detail with
    | error e =>
      rw [hr] at h
      cases h
    | ok p =>
      obtain ⟨d', rest⟩ := p
      rw [hr] at h
      cases h
      obtain ⟨hcode, hs⟩ := ErrorDetail.reader_ok hr
      exact ⟨hcode, hs ▸ List.prefix_append _ _⟩

/-- The answer to a request for a lease to resize, whose size a check asks for. -/
def grantedFrame : Frame := ⟨⟨⟨List.replicate 16 0, rfl⟩⟩, 7, flagResponse,
  .leaseGranted ⟨⟨⟨List.replicate 16 1, rfl⟩⟩, 7, .resize, 3, none, some ⟨2, 5, 80, 24⟩⟩⟩

theorem codec_canonical_grantedFrame : ∃ bytes, grantedFrame.encode = some bytes ∧
    decodeCompleteFrame bytes = .ok (.frame bytes.length grantedFrame.header grantedFrame) :=
  codec_canonical.1 grantedFrame (by decide) (by decide) (by decide)

end Ferryx.Fxsh
