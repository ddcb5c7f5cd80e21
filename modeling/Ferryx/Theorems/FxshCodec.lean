import Ferryx.Fxsh.Frame

/-! A codec is lawful if its decoder inverts its encoder. Lawful fields make a lawful record; the types that choose between
alternatives have a proof of their own. -/

namespace Ferryx.Fxsh
open Lib Decoder SnapshotPayload UiEventKind

/-- A codec that reads back what it writes and accepts nothing else. -/
class LawfulCodec (α : Type) [Codec α] : Prop where
  inverts : Inverts (2 ^ 32) (Codec.ok (α := α)) enc dec

theorem inverts_u8 : Inverts (2 ^ 32) (fun _ => true) putU8 Reader.u8 := by
  refine ((Inverts.nat Reason.truncated Nat.one_pos).iso UInt8.toNat .ofNat (fun h => ?_)
    fun v => UInt8.ofNat_toNat).congr (fun v => ?_) fun v => ?_
  · exact UInt8.toNat_ofNat_of_lt' (of_decide_eq_true h)
  · exact (decide_eq_true v.toNat_lt).symm
  · simp [putU8, beBytes]

theorem inverts_u16 : Inverts (2 ^ 32) (fun _ => true) putU16 Reader.u16 := by
  refine ((Inverts.nat Reason.truncated Nat.two_pos).iso UInt16.toNat .ofNat (fun h => ?_)
    fun v => UInt16.ofNat_toNat).congr (fun v => ?_) fun v => rfl
  · exact UInt16.toNat_ofNat_of_lt' (of_decide_eq_true h)
  · exact (decide_eq_true v.toNat_lt).symm

theorem inverts_u32 : Inverts (2 ^ 32) (fun _ => true) putU32 Reader.u32 := by
  refine ((Inverts.nat Reason.truncated (k := 4) (by decide)).iso UInt32.toNat .ofNat (fun h => ?_)
    fun v => UInt32.ofNat_toNat).congr (fun v => ?_) fun v => rfl
  · exact UInt32.toNat_ofNat_of_lt' (of_decide_eq_true h)
  · exact (decide_eq_true v.toNat_lt).symm

theorem inverts_u64 : Inverts (2 ^ 32) (fun _ => true) putU64 Reader.u64 := by
  refine ((Inverts.nat Reason.truncated (k := 8) (by decide)).iso UInt64.toNat .ofNat (fun h => ?_)
    fun v => UInt64.ofNat_toNat).congr (fun v => ?_) fun v => rfl
  · exact UInt64.toNat_ofNat_of_lt' (of_decide_eq_true h)
  · exact (decide_eq_true v.toNat_lt).symm

theorem inverts_i32 : Inverts (2 ^ 32) (fun _ => true) putI32 Reader.i32 :=
  inverts_u32.iso Int32.toUInt32 UInt32.toInt32 (fun _ => UInt32.toUInt32_toInt32 _) Int32.toInt32_toUInt32

theorem inverts_len : Inverts (2 ^ 32) (fun n => decide (n < 2 ^ 32)) putLen Reader.len where
  reads {n} hv hlen rest := by
    rw [Reader.len, putLen, bind_of_ok (inverts_u32.reads rfl hlen rest), UInt32.toNat_ofNat_of_lt' (of_decide_eq_true hv)]
    rfl
  canonical {s n rest} h := by
    obtain ⟨v, r, hv, h⟩ := bind_ok.mp h
    obtain ⟨rfl, rfl⟩ := pure_ok.mp h
    obtain ⟨-, rfl⟩ := inverts_u32.canonical hv
    exact ⟨decide_eq_true v.toNat_lt, by rw [putLen, UInt32.ofNat_toNat]⟩
  nonempty n := inverts_u32.nonempty _

theorem inverts_lenPrefixed : Inverts (2 ^ 32) (fun _ => true) putLenPrefixed Reader.lenPrefixed :=
  inverts_len.bytes .truncated

theorem inverts_bool : Inverts (2 ^ 32) (fun _ => true) putBool Reader.bool := by
  refine (inverts_u8.tagged (fun v : Bool => if v then 1 else 0) (fun _ => []) (fun {v} _ _ rest => ?_)
    fun {t s v rest} h => ?_).congr (fun _ => rfl) fun _ => rfl
  · cases v <;> rfl
  · split at h
    · obtain ⟨rfl, rfl⟩ := pure_ok.mp h
      exact ⟨rfl, rfl, rfl⟩
    · obtain ⟨rfl, rfl⟩ := pure_ok.mp h
      exact ⟨rfl, rfl, rfl⟩
    · cases h

theorem inverts_string : Inverts (2 ^ 32) (fun _ => true) (fun s : String => putLenPrefixed s.toUTF8.data.toList)
    Reader.string := by
  refine inverts_lenPrefixed.lookup (fun s : String => s.toUTF8.data.toList)
    (fun raw => String.fromUTF8? ⟨raw.toArray⟩) (fun s => ?_) (fun {raw s} h => ?_) .badUtf8
  · have hvalid : (ByteArray.mk s.toUTF8.data.toList.toArray).IsValidUTF8 := s.isValidUTF8
    exact dif_pos hvalid
  · unfold String.fromUTF8? at h
    split at h
    · cases h
      rfl
    · cases h

instance : LawfulCodec UInt8 := ⟨inverts_u8⟩

instance : LawfulCodec UInt16 := ⟨inverts_u16⟩

instance : LawfulCodec UInt32 := ⟨inverts_u32⟩

instance : LawfulCodec UInt64 := ⟨inverts_u64⟩

instance : LawfulCodec Int32 := ⟨inverts_i32⟩

instance : LawfulCodec Bool := ⟨inverts_bool⟩

instance : LawfulCodec String := ⟨inverts_string⟩

instance : LawfulCodec Uuid := ⟨(Inverts.array Reason.truncated (n := 16) (by decide)).iso _ _ (fun _ => rfl) fun _ => rfl⟩

instance : LawfulCodec Digest :=
  ⟨(Inverts.array Reason.truncated (n := 16) (by decide)).iso _ _ (fun _ => rfl) fun _ => rfl⟩

instance : LawfulCodec Bytes := ⟨inverts_lenPrefixed.iso _ _ (fun _ => rfl) fun _ => rfl⟩

section Compound
variable {α β : Type} [Codec α] [LawfulCodec α]

instance : LawfulCodec (Option α) := by
  refine ⟨?_⟩
  show Inverts (2 ^ 32) _ _ (Reader.opt dec)
  unfold Reader.opt
  refine (inverts_u8.tagged (fun v : Option α => if v.isSome then 1 else 0) (fun v => (v.map enc).getD [])
    (fun {v} hv hlen rest => ?_) fun {t s v rest} h => ?_).congr (fun _ => rfl) fun v => ?_
  · cases v with
    | none => rfl
    | some a =>
      have hok : Codec.ok a = true := hv
      exact bind_of_ok (LawfulCodec.inverts.reads hok hlen rest)
  · split at h
    · obtain ⟨rfl, rfl⟩ := pure_ok.mp h
      exact ⟨rfl, rfl, rfl⟩
    · obtain ⟨a, r, ha, h⟩ := bind_ok.mp h
      obtain ⟨rfl, rfl⟩ := pure_ok.mp h
      obtain ⟨hok, rfl⟩ := LawfulCodec.inverts.canonical ha
      exact ⟨hok, rfl, rfl⟩
    · cases h
  · cases v <;> rfl

instance : LawfulCodec (List α) := ⟨inverts_len.counted LawfulCodec.inverts⟩

instance [Codec β] [LawfulCodec β] : LawfulCodec (α × β) := ⟨LawfulCodec.inverts.prod LawfulCodec.inverts⟩

theorem LawfulCodec.record {fields : β → α} {make : α → β} {check : β → DResult Unit}
    (hfm : ∀ a, fields (make a) = a := by intro; rfl) (hmf : ∀ b, make (fields b) = b := by intro; rfl) :
    @LawfulCodec β (.record fields make check) :=
  @LawfulCodec.mk β (.record fields make check) (LawfulCodec.inverts.record (fun _ => hfm _) hmf check)

end Compound

theorem LawfulCodec.u8Enum {α : Type} {code : α → UInt8} {variants : List α}
    (h : ∀ a, variants.find? (fun b => code b == code a) = some a) : @LawfulCodec α (.u8Enum code variants) :=
  @LawfulCodec.mk α (.u8Enum code variants) (inverts_u8.lookup _ _ h (fun hf => by simpa using List.find?_some hf) .badEnum)

section Steps
variable {α β : Type} [Codec α] [LawfulCodec α] {f : α → Reader β} {s t : List UInt8}

theorem reads_bind {a : α} (hok : Codec.ok a = true) (hlen : (enc a).length < 2 ^ 32) (rest : List UInt8) :
    (dec >>= f) (enc a ++ rest) = f a rest :=
  bind_of_ok (LawfulCodec.inverts.reads hok hlen rest)

theorem canonical_bind {b : β} (h : (dec >>= f) s = .ok (b, t)) : ∃ a r, Codec.ok a = true ∧ s = enc a ++ r ∧
    f a r = .ok (b, t) := by
  obtain ⟨a, r, ha, hf⟩ := bind_ok.mp h
  obtain ⟨hok, hs⟩ := LawfulCodec.inverts.canonical ha
  exact ⟨a, r, hok, hs, hf⟩

end Steps

instance : LawfulCodec Reason := .u8Enum fun v => by cases v <;> rfl

instance : LawfulCodec ClientKind := .u8Enum fun v => by cases v <;> rfl

instance : LawfulCodec Supervisor := .u8Enum fun v => by cases v <;> rfl

instance : LawfulCodec Scope := .u8Enum fun v => by cases v <;> rfl

instance : LawfulCodec Signal := .u8Enum fun v => by cases v <;> rfl

instance : LawfulCodec OperationKind := .u8Enum fun v => by cases v <;> rfl

instance : LawfulCodec CursorStyle := .u8Enum fun v => by cases v <;> rfl

instance : LawfulCodec MouseMode := .u8Enum fun v => by cases v <;> rfl

instance : LawfulCodec MouseEncoding := .u8Enum fun v => by cases v <;> rfl

instance : LawfulCodec ClipboardTarget := .u8Enum fun v => by cases v <;> rfl

instance : LawfulCodec Color := by
  refine ⟨?_⟩
  refine (inverts_u8.tagged (fun | .default => 0 | .indexed _ => 1 | .rgb .. => 2)
    (fun | .default => [] | .indexed i => enc i | .rgb r g b => enc r ++ (enc g ++ enc b)) (fun {c} _ _ rest => ?_)
    fun {t s c rest} h => ?_).congr (fun _ => rfl) fun c => ?_
  · have hbyte : ∀ v : UInt8, (enc v).length < 2 ^ 32 := fun v => (by decide : 1 < 2 ^ 32)
    cases c with
    | default => rfl
    | indexed i => exact reads_bind rfl (hbyte i) rest
    | rgb r g b =>
      exact (reads_bind rfl (hbyte r) _).trans ((reads_bind rfl (hbyte g) _).trans (reads_bind rfl (hbyte b) rest))
  · split at h
    · obtain ⟨rfl, rfl⟩ := pure_ok.mp h
      exact ⟨rfl, rfl, rfl⟩
    · obtain ⟨i, r, -, hi, hp⟩ := canonical_bind h
      obtain ⟨rfl, rfl⟩ := pure_ok.mp hp
      exact ⟨rfl, rfl, hi⟩
    · obtain ⟨r, s₁, -, hr, hs₁⟩ := canonical_bind h
      obtain ⟨g, s₂, -, hg, hs₂⟩ := canonical_bind hs₁
      obtain ⟨b, s₃, -, hb, hp⟩ := canonical_bind hs₂
      obtain ⟨rfl, rfl⟩ := pure_ok.mp hp
      exact ⟨rfl, rfl, by simp [hr, hg, hb]⟩
    · cases h
  · cases c <;> rfl

def UiEventKind.tag : UiEventKind → UInt8
  | .clipboardWrite .. => 1
  | .notification .. => 2
  | .bell => 3

def UiEventKind.body : UiEventKind → List UInt8
  | .clipboardWrite target text => enc target ++ enc text
  | .notification title body => enc title ++ enc body
  | .bell => []

theorem inverts_kind : Inverts (2 ^ 32) (fun k => k.check.isOk) encKind decKind := by
  unfold decKind
  refine (inverts_u8.tagged tag body (fun {k} hv hlen rest => ?_) fun {t s k rest} h => ?_).congr
    (fun _ => rfl) fun k => ?_
  · cases k with
    | clipboardWrite target text =>
      rw [body, List.length_append] at hlen
      rw [body, List.append_assoc]
      exact (reads_bind rfl (by omega) _).trans (reads_bind rfl (by omega) _)
    | notification title body =>
      rw [UiEventKind.body, List.length_append] at hlen
      rw [UiEventKind.body, List.append_assoc]
      refine (reads_bind rfl (by omega) _).trans ((reads_bind rfl (by omega) _).trans ?_)
      exact bind_of_ok (check_ok (u := ()) |>.mpr ⟨hv, rfl⟩)
    | bell => rfl
  · split at h
    · obtain ⟨target, s₁, -, ht, hs₁⟩ := canonical_bind h
      obtain ⟨text, s₂, -, hx, hp⟩ := canonical_bind hs₁
      obtain ⟨rfl, rfl⟩ := pure_ok.mp hp
      exact ⟨rfl, rfl, by rw [ht, hx, body, List.append_assoc]⟩
    · obtain ⟨title, s₁, -, ht, hs₁⟩ := canonical_bind h
      obtain ⟨body, s₂, -, hb, hs₂⟩ := canonical_bind hs₁
      obtain ⟨u, s₃, hc, hp⟩ := bind_ok.mp hs₂
      obtain ⟨hok, rfl⟩ := check_ok.mp hc
      obtain ⟨rfl, rfl⟩ := pure_ok.mp hp
      exact ⟨hok, rfl, by rw [ht, hb, UiEventKind.body, List.append_assoc]⟩
    · obtain ⟨rfl, rfl⟩ := pure_ok.mp h
      exact ⟨rfl, rfl, rfl⟩
    · cases h
  · cases k <;> simp [encKind, tag, body] <;> rfl

instance : LawfulCodec UiEvent := by
  have h := (inverts_u64.prod inverts_kind).iso (fun e : UiEvent => (e.eventId, e.kind)) (fun p => ⟨p.1, p.2⟩)
      (fun _ => rfl)
    fun _ => rfl
  simp only [bind_assoc, pure_bind] at h
  exact ⟨h.congr (fun _ => (Bool.true_and _).symm) fun _ => rfl⟩

instance : LawfulCodec OperationId := .record

instance : LawfulCodec Cell := .record

instance : LawfulCodec RowData := .record

instance : LawfulCodec Cursor := .record

instance : LawfulCodec Palette := .record

instance : LawfulCodec Hyperlink := .record

instance : LawfulCodec ExitInfo := .record

instance : LawfulCodec Modes := .record

instance : LawfulCodec Delta := .record

instance : LawfulCodec SBody := .record

instance : LawfulCodec Body := .record

def SnapshotPayload.tag : SnapshotPayload → UInt8
  | .full _ => 0
  | .chunk .. => 1

def SnapshotPayload.body : SnapshotPayload → List UInt8
  | .full b => enc b
  | .chunk index total totalLen bytes => enc index ++ (enc total ++ (enc totalLen ++ enc bytes))

theorem inverts_payload : Inverts (2 ^ 32) SnapshotPayload.ok SnapshotPayload.encPayload SnapshotPayload.decPayload := by
  unfold SnapshotPayload.decPayload
  refine (inverts_u8.tagged SnapshotPayload.tag SnapshotPayload.body (fun {p} hv hlen rest => ?_) fun {t s p rest} h =>
    ?_).congr
    (fun _ => rfl) fun p => ?_
  · cases p with
    | full b => exact reads_bind hv hlen rest
    | chunk index total totalLen bytes =>
      simp only [SnapshotPayload.body, List.length_append] at hlen
      simp only [SnapshotPayload.body, List.append_assoc]
      refine (reads_bind rfl (by omega) _).trans ((reads_bind rfl (by omega) _).trans ((reads_bind rfl (by omega) _).trans
        ((reads_bind rfl (by omega) rest).trans ?_)))
      rw [SnapshotPayload.ok, Bool.and_true] at hv
      exact bind_of_ok (check_ok (u := ()) |>.mpr ⟨hv, rfl⟩)
  · split at h
    · obtain ⟨b, s₁, hok, hb, hp⟩ := canonical_bind h
      obtain ⟨rfl, rfl⟩ := pure_ok.mp hp
      exact ⟨hok, rfl, hb⟩
    · obtain ⟨index, s₁, -, hi, hs₁⟩ := canonical_bind h
      obtain ⟨total, s₂, -, ht, hs₂⟩ := canonical_bind hs₁
      obtain ⟨totalLen, s₃, -, hl, hs₃⟩ := canonical_bind hs₂
      obtain ⟨bytes, s₄, -, hb, hs₄⟩ := canonical_bind hs₃
      obtain ⟨u, s₅, hc, hp⟩ := bind_ok.mp hs₄
      obtain ⟨hok, rfl⟩ := check_ok.mp hc
      obtain ⟨rfl, rfl⟩ := pure_ok.mp hp
      exact ⟨by rw [SnapshotPayload.ok, hok]; rfl, rfl, by simp [hi, ht, hl, hb, SnapshotPayload.body]⟩
    · cases h
  · cases p <;> simp [SnapshotPayload.encPayload, SnapshotPayload.tag, SnapshotPayload.body] <;> rfl

instance : LawfulCodec SnapshotFrame := by
  have h := (inverts_u64.prod ((LawfulCodec.inverts (α := Uuid)).prod (inverts_u64.prod inverts_payload))).iso
    (fun f : SnapshotFrame => (f.subscriptionId, f.sessionIncarnation, f.snapshotId, f.payload))
    (fun p => ⟨p.1, p.2.1, p.2.2.1, p.2.2.2⟩) (fun _ => rfl) fun _ => rfl
  simp only [bind_assoc, pure_bind] at h
  exact ⟨h.congr (fun _ => rfl) fun f => by simp [enc]⟩

instance : LawfulCodec SessionState := .record

instance : LawfulCodec SessionEntry := .record

instance : LawfulCodec SessionList := .record

instance : LawfulCodec Hello := .record

instance : LawfulCodec HelloAck := .record

instance : LawfulCodec Spawn := .record

instance : LawfulCodec SpawnResult := .record

instance : LawfulCodec AcquireLease := .record

instance : LawfulCodec PriorEpoch := .record

instance : LawfulCodec ResizeApplied := .record

instance : LawfulCodec LeaseGranted := .record

instance : LawfulCodec ReleaseLease := .record

instance : LawfulCodec LeaseReleased := .record

instance : LawfulCodec LeaseRevoked := .record

instance : LawfulCodec Reclaim := .record

instance : LawfulCodec InputProgress := .record

instance : LawfulCodec InputFinal := .record

instance : LawfulCodec ReclaimResult := .record

instance : LawfulCodec WriteInput := .record

instance : LawfulCodec InputAck := .record

instance : LawfulCodec GetEpochState := .record

instance : LawfulCodec EpochState := .record

instance : LawfulCodec Resize := .record

instance : LawfulCodec ResizeAck := .record

instance : LawfulCodec Subscribe := .record

instance : LawfulCodec SubscribeAck := .record

instance : LawfulCodec Resync := .record

instance : LawfulCodec Unsubscribe := .record

instance : LawfulCodec ListSessions := .record

instance : LawfulCodec Kill := .record

instance : LawfulCodec KillResult := .record

instance : LawfulCodec ChildExited := .record

instance : LawfulCodec ErrorFrame := .record

instance : LawfulCodec ReserveOperation := .record

instance : LawfulCodec OperationReserved := .record

instance : LawfulCodec LeaseVacated := .record

end Ferryx.Fxsh
