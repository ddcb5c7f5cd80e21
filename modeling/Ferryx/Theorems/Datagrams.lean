import Ferryx.Rd.Datagram

/-! The replay window accepts exactly the counters that were not opened and are not too far below the highest one. With a
cipher that opens only what was sealed, a datagram is returned at most once, and the first time it is presented in the
window. -/

namespace Ferryx.Rd
open Lib Std List PacketHeader DatagramCipher

namespace ReplayWindow
variable {w : ReplayWindow} {seen : List Nat} {c : Nat}

/-- The window has recorded exactly what was seen, as far back as it reaches. -/
structure Tracks (w : ReplayWindow) (seen : List Nat) : Prop where
  any : w.receivedAny = true ↔ seen ≠ []
  upto : ∀ d ∈ seen, d ≤ w.highestReceived
  top : w.highestReceived = 0 ∨ w.highestReceived ∈ seen
  bits : ∀ d, oldestBlock w.highestReceived ≤ d / 64 → (w.blocks.contains d = true ↔ d ∈ seen)
  range : ∀ b ∈ w.blocks, oldestBlock w.highestReceived ≤ b ∧ b ≤ w.highestReceived / 64

theorem oldestBlock_le {highest : Nat} (h : highest < c + replayWindowSize) : oldestBlock highest ≤ c / 64 := by
  unfold oldestBlock
  unfold replayWindowSize at *
  omega

theorem tracks_new : Tracks {} [] where
  any := by simp
  upto := by simp
  top := .inl rfl
  bits d _ := by simp [BitBlocks.contains]
  range b hb := by simp at hb

theorem Tracks.canAccept_iff (T : w.Tracks seen) : w.canAccept c = true ↔ c ∉ seen ∧ ∀ d ∈ seen,
    d < c + replayWindowSize := by
  unfold canAccept
  split
  next h =>
    simp only [Bool.and_eq_true, decide_eq_true_eq] at h
    have htop : w.highestReceived ∈ seen := T.top.resolve_left (by omega)
    simp only [Bool.false_eq_true, false_iff, not_and, not_forall]
    intro _
    exact ⟨_, htop, by omega⟩
  next h =>
    have hwin : w.highestReceived < c + replayWindowSize := by
      cases hany : w.receivedAny with
      | true =>
        simp only [hany, Bool.true_and, Bool.and_eq_true, decide_eq_true_eq, not_and] at h
        have hsize : 0 < replayWindowSize := by decide
        omega
      | false =>
        have hnil : seen = [] := by
          by_contra hne
          cases hany.symm.trans (T.any.mpr hne)
        have hzero : w.highestReceived = 0 := by simpa [hnil] using T.top
        have hsize : 0 < replayWindowSize := by decide
        omega
    have hbits := T.bits c (oldestBlock_le hwin)
    rw [BitBlocks.all_mask_iff, Bool.not_eq_true', ← Bool.not_eq_true, hbits]
    exact ⟨fun hc => ⟨hc, fun d hd => (T.upto d hd).trans_lt hwin⟩, And.left⟩

theorem Tracks.record (T : w.Tracks seen) (hc : w.canAccept c = true) : (w.record c).Tracks (seen ++ [c]) := by
  have hold : ∀ d ∈ seen, d < c + replayWindowSize := (T.canAccept_iff.mp hc).2
  have hsize : replayWindowSize = 4096 := rfl
  have hwin : w.highestReceived < c + replayWindowSize := by
    rcases T.top with h | h
    · omega
    · exact hold _ h
  have hhigh : (w.record c).highestReceived = max w.highestReceived c := by
    show (if !w.receivedAny || c > w.highestReceived then c else w.highestReceived) = _
    cases hany : w.receivedAny with
    | true =>
      simp only [Bool.not_true, Bool.false_or, decide_eq_true_eq]
      split <;> omega
    | false =>
      have hnil : seen = [] := by
        by_contra hne
        cases hany.symm.trans (T.any.mpr hne)
      have hzero : w.highestReceived = 0 := by simpa [hnil] using T.top
      simp [hzero]
  have hlow : oldestBlock (w.record c).highestReceived ≤ c / 64 := oldestBlock_le (by rw [hhigh]; omega)
  have hmono : oldestBlock w.highestReceived ≤ oldestBlock (w.record c).highestReceived := by
    rw [hhigh]
    unfold oldestBlock
    omega
  have hblocks : (w.record c).blocks = if oldestBlock (w.record c).highestReceived > oldestBlock w.highestReceived then
      (w.blocks.insert c).since (oldestBlock (w.record c).highestReceived) else w.blocks.insert c := rfl
  constructor
  · simp [ReplayWindow.record]
  · intro d hd
    rw [hhigh]
    rcases mem_append.mp hd with hd | hd
    · exact (T.upto d hd).trans (le_max_left _ _)
    · rw [mem_singleton.mp hd]
      exact le_max_right _ _
  · rw [hhigh]
    rcases le_total w.highestReceived c with hle | hle
    · exact .inr (by simp [max_eq_right hle])
    · rw [max_eq_left hle]
      exact T.top.imp_right (mem_append_left _)
  · intro d hd
    have hcont : (w.record c).blocks.contains d = (w.blocks.insert c).contains d := by
      rw [hblocks]
      split
      · exact BitBlocks.contains_since hd
      · rfl
    rw [hcont, BitBlocks.contains_insert, Bool.or_eq_true, decide_eq_true_eq, T.bits d (hmono.trans hd)]
    simp [or_comm]
  · intro b hb
    have hmem : b ∈ w.blocks.insert c ∧ oldestBlock (w.record c).highestReceived ≤ b := by
      rw [hblocks] at hb
      split at hb
      · exact BitBlocks.mem_since.mp hb
      next hle =>
        refine ⟨hb, ?_⟩
        rcases BitBlocks.mem_insert.mp hb with rfl | hb
        · exact hlow
        · exact (Nat.le_of_not_gt hle).trans (T.range b hb).1
    refine ⟨hmem.2, ?_⟩
    rw [hhigh]
    rcases BitBlocks.mem_insert.mp hmem.1 with rfl | hb
    · exact Nat.div_le_div_right (le_max_right _ _)
    · exact (T.range b hb).2.trans (Nat.div_le_div_right (le_max_left _ _))

theorem Tracks.size_le (T : w.Tracks seen) : ExtTreeMap.size w.blocks ≤ 65 := by
  refine BitBlocks.size_le (oldestBlock w.highestReceived) 65 fun b hb => ?_
  have h := T.range b hb
  unfold oldestBlock at h ⊢
  have hsize : replayWindowSize = 4096 := rfl
  omega

end ReplayWindow
open DatagramLink

namespace DatagramCipher
variable {K : Type} [Aead K] {c : DatagramCipher K} {d : List UInt8} {r : SealedDatagram}

/-- What a datagram that opens is made of. -/
structure Opens (c : DatagramCipher K) (d : List UInt8) (header : PacketHeader) (payload : List UInt8) : Prop where
  length : size + nonceSize + tagSize ≤ d.length
  header : decode (d.take size) = .ok header
  direction : (d.drop size).take 4 = c.noncePrefix.1
  fresh : c.replay.canAccept (counterOf d) = true
  payload : Aead.decrypt c.cipher (nonceOf d) (d.take size) (d.drop (size + nonceSize)) = some payload

theorem openDatagram_of_opens {header : PacketHeader} {payload : List UInt8} (h : c.Opens d header payload) :
    c.openDatagram d = ({ c with replay := c.replay.record (counterOf d) }, .ok (header, payload)) := by
  have hlen := h.length
  have hlen' : ¬(d.drop size).length < nonceSize + tagSize := by
    rw [length_drop]
    omega
  have hopen : c.openSealed (d.drop size) (d.take size) =
      ({ c with replay := c.replay.record (counterOf d) }, .ok payload) := by
    have hfresh := h.fresh
    have hpay := h.payload
    rw [← drop_drop] at hpay
    unfold counterOf nonceOf at *
    simp only [openSealed, hlen', if_false, h.direction, ne_eq, not_true_eq_false, hfresh, Bool.not_true,
      Bool.false_eq_true, hpay]
  simp only [openDatagram, Nat.not_lt.mpr hlen, if_false, h.header, hopen]

theorem openSealed_cases (c : DatagramCipher K) (bytes aad : List UInt8) :
    (bytes.take 4 = c.noncePrefix.1 ∧ c.replay.canAccept (beValue ((bytes.take nonceSize).drop 4)) = true ∧
      ∃ payload, Aead.decrypt c.cipher (bytes.take nonceSize) aad (bytes.drop nonceSize) = some payload) ∨
    ∃ e, c.openSealed bytes aad = (c, .error e) := by
  unfold openSealed
  split
  · exact .inr ⟨_, rfl⟩
  · split
    · exact .inr ⟨_, rfl⟩
    next hdir =>
      dsimp only
      split
      · exact .inr ⟨_, rfl⟩
      next hfresh =>
        split
        · exact .inr ⟨_, rfl⟩
        next payload hpay => exact .inl ⟨of_not_not hdir, by simpa using hfresh, payload, hpay⟩

theorem openDatagram_cases (c : DatagramCipher K) (d : List UInt8) :
    (∃ header payload, c.Opens d header payload) ∨ ∃ e, c.openDatagram d = (c, .error e) := by
  unfold openDatagram
  split
  · exact .inr ⟨_, rfl⟩
  next hlen =>
    dsimp only
    split
    · exact .inr ⟨_, rfl⟩
    next header hheader =>
      rcases c.openSealed_cases (d.drop size) (d.take size) with ⟨hdir, hfresh, payload, hpay⟩ | ⟨e, he⟩
      · rw [drop_drop] at hpay
        exact .inl ⟨header, payload, Nat.le_of_not_lt hlen, hheader, hdir, hfresh, hpay⟩
      · rw [he]
        exact .inr ⟨e, rfl⟩

/-- A sealed datagram and what it carries. -/
structure Seals (c : DatagramCipher K) (r : SealedDatagram) : Prop where
  counter : r.counter < 2 ^ 64
  bytes : ∃ ciphertext tag, Aead.encrypt c.cipher (c.nonce r.counter) r.header.toBytes r.payload = some (ciphertext, tag) ∧
    r.datagram = r.header.toBytes ++ (c.nonce r.counter ++ (ciphertext ++ tag.1))

omit [Aead K] in
@[simp] theorem length_nonce (c : DatagramCipher K) (counter : Nat) : (c.nonce counter).length = nonceSize := by
  simp [nonce, c.noncePrefix.2, nonceSize]

omit [Aead K] in
theorem beValue_nonce {counter : Nat} (h : counter < 2 ^ 64) : beValue ((c.nonce counter).drop 4) = counter := by
  have hpre := c.noncePrefix.2
  rw [nonce, drop_left' hpre, beValue_beBytes, Nat.mod_eq_of_lt (show counter < 256 ^ 8 from h)]

theorem Seals.nonceOf (h : c.Seals r) : DatagramLink.nonceOf r.datagram = c.nonce r.counter := by
  obtain ⟨ciphertext, tag, -, hd⟩ := h.bytes
  rw [DatagramLink.nonceOf, hd, drop_left' (length_toBytes _), take_left' (length_nonce ..)]

theorem Seals.counterOf (h : c.Seals r) : DatagramLink.counterOf r.datagram = r.counter := by
  rw [DatagramLink.counterOf, h.nonceOf, beValue_nonce h.counter]

theorem Seals.opens (h : c.Seals r) {receiver : DatagramCipher K} (hkey : receiver.cipher = c.cipher)
    (hpre : receiver.noncePrefix = c.noncePrefix) (hfresh : receiver.replay.canAccept r.counter = true) :
    receiver.Opens r.datagram r.header r.payload := by
  have hnonce := h.nonceOf
  have hcounter := h.counterOf
  obtain ⟨ciphertext, tag, henc, hd⟩ := h.bytes
  have htake : r.datagram.take size = r.header.toBytes := by
    rw [hd, take_left' (length_toBytes _)]
  have hdrop : r.datagram.drop size = c.nonce r.counter ++ (ciphertext ++ tag.1) := by
    rw [hd, drop_left' (length_toBytes _)]
  constructor
  · rw [hd]
    simp only [length_append, length_toBytes, length_nonce, tag.2]
    omega
  · rw [htake, decode_toBytes]
  · rw [hdrop, hpre, nonce, append_assoc, take_left' c.noncePrefix.2]
  · rw [hcounter]
    exact hfresh
  · rw [hnonce, htake, ← drop_drop, hdrop, drop_left' (length_nonce ..), hkey]
    exact Aead.decrypt_encrypt henc

end DatagramCipher
namespace DatagramLink
variable {K : Type} [Aead K] {w : DatagramLink K}

/-- The cipher opens only what was sealed. -/
def authentic (w : DatagramLink K) : DatagramAction → Prop
  | .send _ _ => True
  | .present d => (Aead.decrypt w.receiver.cipher (nonceOf d) (d.take size)
    (d.drop (size + nonceSize))).isSome = true → d ∈ w.past.map SealedDatagram.datagram

instance (w : DatagramLink K) : DecidablePred w.authentic
  | .send _ _ => isTrue trivial
  | .present _ => inferInstanceAs (Decidable (_ → _))

/-- The ends share their keys, no nonce is used twice, and only sealed datagrams were accepted. -/
structure Guarded (w : DatagramLink K) : Prop where
  cipher : w.receiver.cipher = w.sender.cipher
  noncePrefix : w.receiver.noncePrefix = w.sender.noncePrefix
  counter : w.sender.sendCounter < 2 ^ 64
  nonces : w.nonces = (List.range' 1 w.sender.sendCounter).map w.sender.nonce
  seals : ∀ r ∈ w.past, w.sender.Seals r ∧ 0 < r.counter ∧ r.counter ≤ w.sender.sendCounter
  distinct : (w.past.map SealedDatagram.counter).Nodup
  tracks : w.receiver.replay.Tracks (w.returned.map OpenedDatagram.counter)
  once : (w.returned.map OpenedDatagram.counter).Nodup
  genuine : ∀ o ∈ w.returned, ∃ r ∈ w.past, r.counter = o.counter ∧ r.header = o.header ∧ r.payload = o.payload

theorem sealDatagram_cases (c : DatagramCipher K) (header : PacketHeader) (payload : List UInt8) :
    c.sendCounter + 1 ≥ 2 ^ 64 ∧ c.sealDatagram header payload = (c, .error .counterExhausted) ∨
    c.sendCounter + 1 < 2 ^ 64 ∧
      ((c.sealDatagram header payload = ({ c with sendCounter := c.sendCounter + 1 }, .error .authentication)) ∨
      ∃ d, c.sealDatagram header payload = ({ c with sendCounter := c.sendCounter + 1 }, .ok d) ∧
        c.Seals ⟨c.sendCounter + 1, header, payload, d⟩) := by
  let next : DatagramCipher K := { c with sendCounter := c.sendCounter + 1 }
  by_cases h : c.sendCounter + 1 ≥ 2 ^ 64
  · refine .inl ⟨h, ?_⟩
    simp only [sealDatagram, sealInto, h, if_true]
  · refine .inr ⟨Nat.lt_of_not_le h, ?_⟩
    cases henc : Aead.encrypt next.cipher (next.nonce next.sendCounter) header.toBytes payload with
    | none =>
      refine .inl ?_
      simp only [sealDatagram, sealInto, h, if_false]
      rw [henc]
    | some sealed =>
      obtain ⟨ciphertext, tag⟩ := sealed
      refine .inr ⟨header.toBytes ++ next.nonce next.sendCounter ++ ciphertext ++ tag.1, ?_, Nat.lt_of_not_le h, ciphertext,
        tag, henc, ?_⟩
      · simp only [sealDatagram, sealInto, h, if_false]
        rw [henc]
      · simp only [append_assoc]
        rfl

omit [Aead K] in
theorem nodup_nonces (c : DatagramCipher K) {n : Nat} (h : n < 2 ^ 64) : ((List.range' 1 n).map c.nonce).Nodup := by
  refine List.Nodup.map_on (fun a ha b hb hab => ?_) nodup_range'
  have hlt : ∀ {a}, a ∈ List.range' 1 n → a < 2 ^ 64 := by
    intro a ha
    have := (mem_range'_1.mp ha).2
    omega
  rw [← beValue_nonce (c := c) (hlt ha), hab, beValue_nonce (hlt hb)]

theorem Guarded.advance (G : Guarded w) (hlt : w.sender.sendCounter + 1 < 2 ^ 64) : Guarded { w with
    sender := { w.sender with sendCounter := w.sender.sendCounter + 1 }
    nonces := w.nonces ++ [w.sender.nonce (w.sender.sendCounter + 1)] } := {
  G with
  counter := hlt
  nonces := by
    show w.nonces ++ _ = (List.range' 1 (w.sender.sendCounter + 1)).map w.sender.nonce
    rw [G.nonces, List.range'_concat, map_append, Nat.add_comm 1, Nat.one_mul]
    rfl
  seals r hr :=
    have h := G.seals r hr
    ⟨⟨h.1.counter, h.1.bytes⟩, h.2.1, h.2.2.trans (Nat.le_succ _)⟩ }

theorem Guarded.send (G : Guarded w) (header : PacketHeader) (payload : List UInt8) :
    Guarded (w.step (.send header payload)) := by
  rw [step]
  rcases sealDatagram_cases w.sender header payload with ⟨h, heq⟩ | ⟨h, heq | ⟨d, heq, hseal⟩⟩
  · rw [heq, if_pos h]
    exact G
  · rw [heq, if_neg (Nat.not_le.mpr h)]
    exact G.advance h
  · rw [heq, if_neg (Nat.not_le.mpr h)]
    have A := G.advance h
    refine ⟨A.cipher, A.noncePrefix, A.counter, A.nonces, ?_, ?_, A.tracks, A.once, ?_⟩
    · intro r hr
      rcases mem_append.mp hr with hr | hr
      · exact A.seals r hr
      · rw [mem_singleton.mp hr]
        exact ⟨⟨hseal.counter, hseal.bytes⟩, Nat.succ_pos _, le_rfl⟩
    · simp only [map_append, map_cons, map_nil]
      refine nodup_append.mpr ⟨G.distinct, by simp, ?_⟩
      rintro a ha b hb rfl
      obtain ⟨r, hr, rfl⟩ := mem_map.mp ha
      have hle := (G.seals r hr).2.2
      rw [mem_singleton.mp hb] at hle
      exact Nat.not_succ_le_self _ hle
    · intro o ho
      obtain ⟨r, hr, h⟩ := G.genuine o ho
      exact ⟨r, mem_append_left _ hr, h⟩

theorem Guarded.present (G : Guarded w) {d : List UInt8} (ha : w.authentic (.present d)) :
    Guarded (w.step (.present d)) := by
  rw [step]
  rcases w.receiver.openDatagram_cases d with ⟨header, payload, hopens⟩ | ⟨e, heq⟩
  · rw [openDatagram_of_opens hopens]
    obtain ⟨r, hr, rfl⟩ := mem_map.mp (ha (by rw [hopens.payload]; rfl))
    have hseal := (G.seals r hr).1
    have hcounter := hseal.counterOf
    have hfresh := hopens.fresh
    rw [hcounter] at hfresh ⊢
    -- What it returns is what was sealed.
    have hsame := hseal.opens G.cipher G.noncePrefix hfresh
    obtain rfl : header = r.header := by
      have h := hopens.header.symm.trans hsame.header
      exact Except.ok.inj h
    obtain rfl : payload = r.payload := Option.some.inj (hopens.payload.symm.trans hsame.payload)
    refine ⟨G.cipher, G.noncePrefix, G.counter, G.nonces, G.seals, G.distinct, ?_, ?_, ?_⟩
    · simp only [map_append, map_cons, map_nil]
      exact G.tracks.record hfresh
    · simp only [map_append, map_cons, map_nil]
      refine nodup_append.mpr ⟨G.once, by simp, ?_⟩
      rintro a ha b hb rfl
      rw [mem_singleton.mp hb] at ha
      exact (G.tracks.canAccept_iff.mp hfresh).1 ha
    · intro o ho
      rcases mem_append.mp ho with ho | ho
      · exact G.genuine o ho
      · rw [mem_singleton.mp ho]
        exact ⟨r, hr, rfl, rfl, rfl⟩
  · rw [heq]
    exact G

theorem guarded_reachable (h : (datagramLink K).Reachable authentic w) : Guarded w := by
  refine h.inv (P := Guarded) ?_ ?_
  · rintro w ⟨masterKey, sessionSalt, direction, c, hc, rfl⟩
    have hnew : c.sendCounter = 0 ∧ c.replay = {} := by
      unfold derive at hc
      split at hc
      · cases hc
      · split at hc
        · cases hc
        · cases hc
          exact ⟨rfl, rfl⟩
    exact {
      cipher := rfl
      noncePrefix := rfl
      counter := by rw [hnew.1]; decide
      nonces := by rw [hnew.1]; rfl
      seals := nofun
      distinct := nodup_nil
      tracks := by rw [hnew.2]; exact ReplayWindow.tracks_new
      once := nodup_nil
      genuine := nofun }
  · rintro w _ a ha rfl G
    cases a with
    | send header payload => exact G.send header payload
    | present d => exact G.present ha

/-- Only sealed datagrams are accepted, each of them once. -/
theorem datagrams_protected (h : (datagramLink K).Reachable authentic w) :
    ((w.returned.map OpenedDatagram.counter).Nodup ∧ (w.past.map SealedDatagram.counter).Nodup ∧
      ∀ o ∈ w.returned, ∃ r ∈ w.past, r.counter = o.counter ∧ r.header = o.header ∧ r.payload = o.payload) ∧
    (∀ d e, (w.receiver.openDatagram d).2 = .error e → (w.receiver.openDatagram d).1 = w.receiver) ∧
    (∀ r ∈ w.past, (∀ o ∈ w.returned, o.counter ≠ r.counter ∧ o.counter < r.counter + replayWindowSize) →
      (w.receiver.openDatagram r.datagram).2 = .ok (r.header, r.payload)) ∧ ExtTreeMap.size w.receiver.replay.blocks ≤ 65 ∧
    (w.nonces.Nodup ∧ (∀ r ∈ w.past, nonceOf r.datagram ∈ w.nonces) ∧ ∀ header payload, w.sender.sendCounter = 2 ^ 64 - 1 →
      w.sender.sealDatagram header payload = (w.sender, .error .counterExhausted)) := by
  have G := guarded_reachable h
  refine ⟨⟨G.once, G.distinct, G.genuine⟩, fun d e he => ?_, fun r hr hfresh => ?_, G.tracks.size_le, ?_, fun r hr => ?_,
    fun header payload hend => ?_⟩
  · rcases w.receiver.openDatagram_cases d with ⟨header, payload, hopens⟩ | ⟨e', heq⟩
    · rw [DatagramCipher.openDatagram_of_opens hopens] at he
      cases he
    · rw [heq]
  · have hacc : w.receiver.replay.canAccept r.counter = true := by
      refine G.tracks.canAccept_iff.mpr ⟨fun hmem => ?_, fun d hd => ?_⟩
      · obtain ⟨o, ho, heq⟩ := mem_map.mp hmem
        exact (hfresh o ho).1 heq
      · obtain ⟨o, ho, rfl⟩ := mem_map.mp hd
        exact (hfresh o ho).2
    rw [DatagramCipher.openDatagram_of_opens ((G.seals r hr).1.opens G.cipher G.noncePrefix hacc)]
  · rw [G.nonces]
    exact nodup_nonces w.sender G.counter
  · obtain ⟨hseal, hpos, hle⟩ := G.seals r hr
    rw [hseal.nonceOf, G.nonces]
    exact mem_map_of_mem (mem_range'_1.mpr ⟨hpos, by omega⟩)
  · rcases sealDatagram_cases w.sender header payload with ⟨-, heq⟩ | ⟨hlt, -⟩
    · exact heq
    · omega

@[reducible] def nullAead : Aead Unit where
  newFromSlice _ := ()
  hkdfSha256 _ _ _ length := ⟨List.replicate length 0, length_replicate⟩
  encrypt _ _ _ plaintext := some (plaintext, ⟨List.replicate tagSize 0, length_replicate⟩)
  decrypt _ _ _ msg :=
    if msg.drop (msg.length - tagSize) = List.replicate tagSize 0 then some (msg.take (msg.length - tagSize)) else none
  decrypt_encrypt h := by
    cases h
    simp

def ping (sequence : UInt32) : PacketHeader := ⟨.ping, sequence, 0, 0⟩

def pingBytes (counter : Nat) (payload tag : UInt8) : List UInt8 :=
  (ping 7).toBytes ++ List.replicate 4 0 ++ beBytes 8 counter ++ [payload] ++ List.replicate tagSize tag

/-- Two datagrams arrive out of order, one of them twice, and a forged one between them. -/
def reordered : DatagramLink Unit :=
  [DatagramAction.send (ping 7) [1], .send (ping 7) [2], .present (pingBytes 2 2 0), .present (pingBytes 2 2 0),
    .present (pingBytes 9 9 9), .present (pingBytes 1 1 0)].foldl (@step Unit nullAead)
    { sender := ⟨(), ⟨[0, 0, 0, 0], rfl⟩, 0, {}⟩, receiver := ⟨(), ⟨[0, 0, 0, 0], rfl⟩, 0, {}⟩ }

theorem datagrams_protected_reordered : reordered.returned = [⟨2, ping 7, [2]⟩, ⟨1, ping 7, [1]⟩] ∧
    (reordered.returned.map OpenedDatagram.counter).Nodup := by
  have hr : (@datagramLink Unit nullAead).Reachable (@authentic Unit nullAead) reordered := by
    refine ⟨_, ⟨List.replicate 32 0, List.replicate 16 0, .clientToHost, _, rfl, rfl⟩, .of_admits ?_⟩
    decide
  exact ⟨by decide, (@datagrams_protected Unit nullAead _ hr).1.1⟩

end DatagramLink
end Ferryx.Rd
