import Ferryx.Connection
import Ferryx.Theorems.FxshMessages

/-! A frame is found in a stream no matter how the stream is cut into reads: a buffer that holds a whole frame reads it
whatever follows (`decodeFrame_append`), and a proper part of a frame reads nothing (`Whole.part`). The loop goes on until a
frame ends the connection. -/

namespace Ferryx.Fxsh
open List
variable {buf : List UInt8} {d : Decoded}

/-- The bytes are one frame, which is read as `d`. -/
structure Whole (bytes : List UInt8) (d : Decoded) : Prop where
  decodes : decodeFrame bytes = .ok d
  full : d ≠ .needMore
  consumed : d.consumed = bytes.length

theorem Header.decode_congr {b b' : List UInt8} (h : b = b') (hb : b.length = headerLen) (hb' : b'.length = headerLen) :
    Header.decode b hb = Header.decode b' hb' := by
  subst h
  rfl

theorem decodeFrame_append (hd : decodeFrame buf = .ok d) (hfull : d ≠ .needMore) (more : List UInt8) :
    decodeFrame (buf ++ more) = .ok d := by
  obtain ⟨hle, h, hdec, hcons, hfits, hpayload⟩ := decodeFrame_full hd hfull
  have hle' : headerLen ≤ (buf ++ more).length := by
    rw [length_append]
    omega
  have hhead : (buf ++ more).take headerLen = buf.take headerLen := take_append_of_le_length hle
  have hdec' := (Header.decode_congr hhead (length_take_of_le hle') (length_take_of_le hle)).trans hdec
  have htake : (buf ++ more).take d.consumed = buf.take d.consumed := take_append_of_le_length hfits
  rw [decodeFrame_of_header hle' hdec', ← hcons, htake, if_neg, ← hpayload]
  rw [length_append]
  omega

variable {bytes more : List UInt8} {e : FatalFrameError} {fs : List (List UInt8 × Decoded)}

theorem Whole.part {part : List UInt8} (h : Whole bytes d) (hpart : bytes = part ++ more) (hmore : more ≠ []) :
    decodeFrame part = .ok .needMore := by
  obtain ⟨hwhole, hd, hdec, hcons, -, -⟩ := decodeFrame_full h.decodes h.full
  by_cases hle : headerLen ≤ part.length
  · have hhead : part.take headerLen = bytes.take headerLen := by
      rw [hpart]
      exact (take_append_of_le_length hle).symm
    have hdec' := (Header.decode_congr hhead (length_take_of_le hle) (length_take_of_le hwhole)).trans hdec
    have hlong : part.length < headerLen + hd.payloadLen.toNat := by
      have hpos := length_pos_iff.mpr hmore
      rw [← hcons, h.consumed, hpart, length_append]
      omega
    rw [decodeFrame_of_header hle hdec', if_pos hlong]
  · rw [decodeFrame, dif_neg hle]

theorem decodeFrame_append_error (he : decodeFrame buf = .error e) (more : List UInt8) :
    decodeFrame (buf ++ more) = .error e := by
  by_cases hle : headerLen ≤ buf.length
  · have hle' : headerLen ≤ (buf ++ more).length := by
      rw [length_append]
      omega
    have hhead : (buf ++ more).take headerLen = buf.take headerLen := take_append_of_le_length hle
    have hcongr := Header.decode_congr hhead (length_take_of_le hle') (length_take_of_le hle)
    cases hdec : Header.decode (buf.take headerLen) (length_take_of_le hle) with
    | ok h =>
      rw [decodeFrame_of_header hle hdec] at he
      cases he
    | error e' =>
      rw [decodeFrame, dif_pos hle, hdec] at he
      rw [decodeFrame, dif_pos hle', hcongr, hdec]
      exact he
  · rw [decodeFrame, dif_neg hle] at he
    cases he

section Loop
variable {helloDone helloDone' : Bool}

theorem drainFrames_needMore (helloDone : Bool) (h : decodeFrame buf = .ok .needMore) :
    drainFrames helloDone buf = ([], .ok (helloDone, buf)) := by
  rw [drainFrames]
  split
  next he => cases he.symm.trans h
  next d hd =>
    cases hd.symm.trans h
    rfl

theorem drainFrames_error (helloDone : Bool) (h : decodeFrame buf = .error e) :
    drainFrames helloDone buf = ([], .error (.fatal e)) := by
  rw [drainFrames]
  split
  next he =>
    cases he.symm.trans h
    rfl
  next hd => cases hd.symm.trans h

theorem drainFrames_taken (h : decodeFrame buf = .ok d) (hfull : d ≠ .needMore)
    (htake : takeDecoded helloDone d = .ok helloDone') :
    drainFrames helloDone buf =
      (d :: (drainFrames helloDone' (buf.drop d.consumed)).1, (drainFrames helloDone' (buf.drop d.consumed)).2) := by
  rw [drainFrames]
  split
  next he => cases he.symm.trans h
  next d' hd =>
    cases hd.symm.trans h
    rw [dif_neg hfull]
    simp only [htake]

theorem drainFrames_ended {why : ConnEnd} (h : decodeFrame buf = .ok d) (hfull : d ≠ .needMore)
    (htake : takeDecoded helloDone d = .error why) : drainFrames helloDone buf = ([d], .error why) := by
  rw [drainFrames]
  split
  next he => cases he.symm.trans h
  next d' hd =>
    cases hd.symm.trans h
    rw [dif_neg hfull]
    simp only [htake]

/-- Frames with what they are read as. -/
def FramesOf (fs : List (List UInt8 × Decoded)) : Prop := ∀ f ∈ fs, Whole f.1 f.2

/-- None of the results ends the connection; at the end `helloDone'` says whether there was a `Hello`. -/
def Taken (helloDone : Bool) (ds : List Decoded) (helloDone' : Bool) : Prop :=
  ds.foldlM takeDecoded helloDone = .ok helloDone'

theorem taken_cons {ds : List Decoded} : Taken helloDone (d :: ds) helloDone' ↔
    ∃ mid, takeDecoded helloDone d = .ok mid ∧ Taken mid ds helloDone' := by
  unfold Taken
  rw [foldlM_cons]
  cases htake : takeDecoded helloDone d with
  | error why =>
    constructor
    · rintro ⟨⟩
    · rintro ⟨_, ⟨⟩, -⟩
  | ok mid =>
    constructor
    · exact fun h => ⟨mid, rfl, h⟩
    · rintro ⟨_, ⟨⟩, hrest⟩
      exact hrest

/-- Draining a buffer takes the frames that it holds whole. -/
theorem drainFrames_stream (hfs : FramesOf fs) (htaken : Taken helloDone (fs.map Prod.snd) helloDone') {buf : List UInt8}
    (h : buf ++ more = (fs.map Prod.fst).flatten) : ∃ done left mid rest, fs = done ++ left ∧
      drainFrames helloDone buf = (done.map Prod.snd, .ok (mid, rest)) ∧ Taken mid (left.map Prod.snd) helloDone' ∧
      rest ++ more = (left.map Prod.fst).flatten ∧ (more = [] → left = [] ∧ rest = []) := by
  induction fs generalizing buf helloDone with
  | nil =>
    obtain ⟨rfl, rfl⟩ := append_eq_nil_iff.mp h
    exact ⟨[], [], helloDone, [], rfl, drainFrames_needMore helloDone rfl, htaken, rfl, fun _ => ⟨rfl, rfl⟩⟩
  | cons f fs ih =>
    have hf := hfs f mem_cons_self
    rw [map_cons, flatten_cons] at h
    by_cases hlen : buf.length < f.1.length
    · -- The buffer ends within the next frame.
      have hsplit : f.1 = buf ++ f.1.drop buf.length := by
        have htake := congrArg (take buf.length) h
        rw [take_left, take_append_of_le_length hlen.le] at htake
        have hcut := take_append_drop buf.length f.1
        rw [← htake] at hcut
        exact hcut.symm
      have hdrop : f.1.drop buf.length ≠ [] := fun hnil => by
        have := congrArg length hnil
        rw [length_drop, length_nil] at this
        omega
      refine ⟨[], f :: fs, helloDone, buf, rfl, drainFrames_needMore helloDone (hf.part hsplit hdrop), htaken, h,
        fun hnil => ?_⟩
      have := congrArg length h
      rw [hnil, append_nil, length_append] at this
      omega
    · -- The buffer holds the next frame.
      have hbuf : buf = f.1 ++ buf.drop f.1.length := by
        have htake := congrArg (take f.1.length) h
        rw [take_left, take_append_of_le_length (Nat.le_of_not_lt hlen)] at htake
        exact (htake ▸ take_append_drop f.1.length buf).symm
      have htail : buf.drop f.1.length ++ more = (fs.map Prod.fst).flatten := by
        have hdrop := congrArg (drop f.1.length) h
        rwa [drop_left, drop_append_of_le_length (Nat.le_of_not_lt hlen)] at hdrop
      have hread : decodeFrame buf = .ok f.2 := by
        rw [hbuf]
        exact decodeFrame_append hf.decodes hf.full _
      obtain ⟨next, htake, htaken⟩ := taken_cons.mp htaken
      obtain ⟨done, left, mid, rest, hfs', hdrain, hleft, hrest, hend⟩ :=
        ih (fun g hg => hfs g (mem_cons_of_mem _ hg)) htaken htail
      refine ⟨f :: done, left, mid, rest, by rw [hfs']; rfl, ?_, hleft, hrest, hend⟩
      rw [drainFrames_taken hread hf.full htake, hf.consumed, hdrain]
      rfl

theorem readStream_frames (hfs : FramesOf fs) (htaken : Taken helloDone (fs.map Prod.snd) helloDone')
    {chunks : List (List UInt8)}
    (h : buf ++ chunks.flatten = (fs.map Prod.fst).flatten) :
    readStream helloDone buf chunks = (fs.map Prod.snd, .ok (helloDone', [])) := by
  induction chunks generalizing fs buf helloDone with
  | nil =>
    obtain ⟨done, left, mid, rest, rfl, hdrain, hleft, -, hend⟩ := drainFrames_stream hfs htaken h
    obtain ⟨rfl, rfl⟩ := hend rfl
    cases hleft
    rw [readStream, hdrain, append_nil]
  | cons chunk chunks ih =>
    obtain ⟨done, left, mid, rest, rfl, hdrain, hleft, hrest, -⟩ := drainFrames_stream hfs htaken h
    rw [flatten_cons, ← append_assoc] at hrest
    rw [readStream, hdrain]
    simp only [ih (fun g hg => hfs g (mem_append_right _ hg)) hleft hrest, map_append]

/-- A stream in one read, whose frames are taken up to one that ends the connection. -/
theorem readStream_ended {why : ConnEnd} (hfs : FramesOf fs) (htaken : Taken helloDone (fs.map Prod.snd) helloDone')
    (h : Whole bytes d) (hend : takeDecoded helloDone' d = .error why) (more : List UInt8) :
    drainFrames helloDone ((fs.map Prod.fst).flatten ++ (bytes ++ more)) = (fs.map Prod.snd ++ [d], .error why) := by
  induction fs generalizing helloDone with
  | nil =>
    cases htaken
    exact drainFrames_ended (decodeFrame_append h.decodes h.full more) h.full hend
  | cons f fs ih =>
    have hf := hfs f mem_cons_self
    obtain ⟨next, htake, htaken⟩ := taken_cons.mp htaken
    rw [map_cons, flatten_cons, append_assoc, drainFrames_taken (decodeFrame_append hf.decodes hf.full _) hf.full htake,
      hf.consumed,
      drop_left, ih (fun g hg => hfs g (mem_cons_of_mem _ hg)) htaken]
    rfl

end Loop

theorem whole_encode {f : Frame} (hflags : f.flags &&& ~~~flagDefined = 0) (h : f.encode = some bytes) :
    Whole bytes (decodedAs f.header f.message.encodePayload) := by
  unfold Frame.encode at h
  split at h
  next hmax =>
    cases h
    have hsmall : f.message.encodePayload.length < 2 ^ 32 := Nat.lt_of_le_of_lt hmax (by decide)
    have hread := decodeFrame_encode (h := f.header) hflags (UInt32.toNat_ofNat_of_lt' hsmall) hmax []
    rw [append_nil] at hread
    exact ⟨hread, decodedAs_ne_needMore _ _, by rw [consumed_decodedAs, length_append, Header.length_encode]⟩
  · cases h

theorem decodedAs_of_ok {f : Frame} (hok : f.message.ok = true) (hmax : f.message.encodePayload.length ≤ maxPayload) :
    decodedAs f.header f.message.encodePayload = .frame (headerLen + f.message.encodePayload.length) f.header f := by
  have hread := Message.decodePayload_encodePayload hok (Nat.lt_of_le_of_lt hmax (by decide)) []
  rw [append_nil] at hread
  unfold decodedAs
  rw [show Message.decodePayload f.header.command f.message.encodePayload = .ok f.message from hread]
  rfl

/-- A frame that is sent with defined flags and whose message passes its checks. -/
structure Sent (f : Frame) (bytes : List UInt8) : Prop where
  flags : f.flags &&& ~~~flagDefined = 0
  ok : f.message.ok = true
  encodes : f.encode = some bytes

theorem Sent.whole {f : Frame} (h : Sent f bytes) : Whole bytes (.frame bytes.length f.header f) := by
  have hwhole := whole_encode h.flags h.encodes
  have hmax : f.message.encodePayload.length ≤ maxPayload := by
    by_contra hlong
    have hnone := h.encodes
    rw [Frame.encode, if_neg hlong] at hnone
    cases hnone
  have hlen := hwhole.consumed
  rw [decodedAs_of_ok h.ok hmax] at hwhole hlen
  rwa [show headerLen + f.message.encodePayload.length = bytes.length from hlen] at hwhole

/-- What opens a stream: a `Hello` that the host accepts. -/
def Opens (bytes : List UInt8) : Prop := ∃ f h, Sent f bytes ∧ f.message = .hello h ∧ acceptHello h = .ok ()

/-- What may follow: a frame with another message, or one with a valid header and a command that is not known. -/
def Follows (bytes : List UInt8) : Prop :=
  (∃ f, Sent f bytes ∧ ∀ h, f.message ≠ .hello h) ∨
    ∃ header command, decodeFrame bytes = .ok (.rejected bytes.length header (.unknownCommand command))

theorem Opens.taken (h : Opens bytes) : ∃ d, Whole bytes d ∧ takeDecoded false d = .ok true := by
  obtain ⟨f, hello, hsent, hmessage, haccept⟩ := h
  refine ⟨_, hsent.whole, ?_⟩
  simp only [takeDecoded, hmessage, haccept]
  rfl

theorem Follows.taken (h : Follows bytes) : ∃ d, Whole bytes d ∧ takeDecoded true d = .ok true := by
  obtain ⟨f, hsent, hmessage⟩ | ⟨header, command, hd⟩ := h
  · refine ⟨_, hsent.whole, ?_⟩
    simp only [takeDecoded]
  · exact ⟨_, ⟨hd, (fun h => by cases h), rfl⟩, rfl⟩

theorem frames_of_follows {frames : List (List UInt8)} (hframes : ∀ bytes ∈ frames, Follows bytes) :
    ∃ fs : List (List UInt8 × Decoded), FramesOf fs ∧ fs.map Prod.fst = frames ∧ Taken true (fs.map Prod.snd) true := by
  induction frames with
  | nil => exact ⟨[], (fun f hf => by cases hf), rfl, rfl⟩
  | cons bytes frames ih =>
    obtain ⟨fs, hfs, hmap, htaken⟩ := ih fun b hb => hframes b (mem_cons_of_mem _ hb)
    obtain ⟨d, hd, htake⟩ := (hframes bytes mem_cons_self).taken
    exact ⟨(bytes, d) :: fs, forall_mem_cons.mpr ⟨hd, hfs⟩, by rw [map_cons, hmap], taken_cons.mpr ⟨true, htake, htaken⟩⟩

/-- A stream that opens with an accepted `Hello` is read frame by frame, however it is cut. -/
theorem stream_read_frame_by_frame {hello : List UInt8} {frames chunks : List (List UInt8)} (hopens : Opens hello)
    (hframes : ∀ bytes ∈ frames, Follows bytes) (hchunks : chunks.flatten = (hello :: frames).flatten) :
    ((readStream false [] chunks).1.map .ok = (hello :: frames).map decodeFrame ∧
      .needMore ∉ (readStream false [] chunks).1 ∧
      (readStream false [] chunks).2 = .ok (true, [])) ∧
      ∀ buf more, decodeFrame buf ≠ .ok .needMore → decodeFrame (buf ++ more) = decodeFrame buf := by
  refine ⟨?_, fun buf more hne => ?_⟩
  · obtain ⟨d, hd, htake⟩ := hopens.taken
    obtain ⟨fs, hfs, rfl, htaken⟩ := frames_of_follows hframes
    have hall : FramesOf ((hello, d) :: fs) := forall_mem_cons.mpr ⟨hd, hfs⟩
    have hread := readStream_frames hall (taken_cons.mpr ⟨true, htake, htaken⟩) (nil_append _ |>.trans hchunks)
    rw [hread]
    refine ⟨?_, fun hmem => ?_, rfl⟩
    · rw [← map_cons (f := Prod.fst) (a := (hello, d)), map_map, map_map]
      exact map_congr_left fun f hf => (hall f hf).decodes.symm
    · obtain ⟨f, hf, hneed⟩ := mem_map.mp hmem
      exact (hall f hf).full hneed
  · cases hd : decodeFrame buf with
    | error e => exact decodeFrame_append_error hd more
    | ok d => exact decodeFrame_append hd (fun h => hne (h ▸ hd)) more

theorem length_zeros : (List.replicate 16 (0 : UInt8)).length = 16 := rfl

def zeros : Uuid := ⟨⟨_, length_zeros⟩⟩

/-- The first frame of a client. -/
def helloFrame : Frame :=
  ⟨zeros, 1, 0, .hello ⟨major, minor, capV1Required, .guiWindow, zeros⟩⟩

def resyncFrame : Frame := ⟨zeros, 7, 0, .resync ⟨3⟩⟩

/-- The same with a flag that has no meaning. -/
def undefinedFlag : Frame := { resyncFrame with flags := 8 }

/-- A grant of an input lease with the size of a resize lease, which the check of the message refuses. -/
def badGrant : Frame := { resyncFrame with
  message := .leaseGranted ⟨zeros, 1, .input, 1, none, some ⟨1, 1, 80, 24⟩⟩ }

/-- The bytes of a frame, whatever its flags. -/
def Frame.wire (f : Frame) : List UInt8 := f.header.encode ++ f.message.encodePayload

theorem sent_helloFrame : Sent helloFrame helloFrame.wire := ⟨by decide, by decide, rfl⟩

theorem sent_resyncFrame : Sent resyncFrame resyncFrame.wire := ⟨by decide, by decide, rfl⟩

theorem stream_read_frame_by_frame_resync : Opens helloFrame.wire ∧ ∀ cut,
    (readStream false [] [(helloFrame.wire ++ resyncFrame.wire).take cut,
      (helloFrame.wire ++ resyncFrame.wire).drop cut]).1.map .ok =
      [helloFrame.wire, resyncFrame.wire].map decodeFrame := by
  have hopens : Opens helloFrame.wire := ⟨helloFrame, _, sent_helloFrame, rfl, by decide⟩
  have hframes : ∀ bytes ∈ [resyncFrame.wire], Follows bytes := by
    intro bytes hb
    rw [mem_singleton.mp hb]
    exact .inl ⟨resyncFrame, sent_resyncFrame, fun h heq => by cases heq⟩
  refine ⟨hopens, fun cut => (stream_read_frame_by_frame hopens hframes ?_).1.1⟩
  simp only [flatten_cons, flatten_nil, append_nil, take_append_drop]

theorem readStream_one (chunk : List UInt8) : readStream false [] [chunk] = drainFrames false chunk := by
  rw [readStream, drainFrames_needMore false rfl]
  rfl

def helloDecoded : Decoded := .frame helloFrame.wire.length helloFrame.header helloFrame

theorem hello_taken : FramesOf [(helloFrame.wire, helloDecoded)] ∧ Taken false [helloDecoded] true :=
  ⟨forall_mem_cons.mpr ⟨sent_helloFrame.whole, by simp⟩, show [helloDecoded].foldlM takeDecoded false = .ok true by decide⟩

/-- Frames may be sent that end the connection, so that what follows is not read: one with a flag that is not defined,
another one than a `Hello` at the beginning, a second `Hello`, and one whose message does not pass its check. -/
theorem stream_cut_short :
    readStream false [] [helloFrame.wire ++ undefinedFlag.wire] = ([helloDecoded], .error (.fatal (.undefinedFlags 8))) ∧
    (readStream false [] [resyncFrame.wire ++ resyncFrame.wire]).2 = .error .helloExpected ∧
    (readStream false [] [helloFrame.wire ++ (helloFrame.wire ++ resyncFrame.wire)]).2 = .error .duplicateHello ∧
    (readStream false [] [helloFrame.wire ++ (badGrant.wire ++ resyncFrame.wire)]).2 =
      .error (.violation .optCondition) := by
  obtain ⟨hfs, htaken⟩ := hello_taken
  have hbad : Whole badGrant.wire (.rejected badGrant.wire.length badGrant.header (.violation .optCondition)) :=
    ⟨by decide +kernel, (fun h => by cases h), rfl⟩
  have hfirst : takeDecoded false helloDecoded = .ok true := by decide
  have hearly : takeDecoded false (.frame resyncFrame.wire.length resyncFrame.header resyncFrame) =
      .error .helloExpected := rfl
  have hagain : takeDecoded true helloDecoded = .error .duplicateHello := rfl
  have hrefused : takeDecoded true (.rejected badGrant.wire.length badGrant.header (.violation .optCondition)) =
    .error (.violation .optCondition) := rfl
  have hhello := sent_helloFrame.whole
  have hresync := sent_resyncFrame.whole
  simp only [readStream_one]
  refine ⟨?_, ?_, ?_, ?_⟩
  · rw [drainFrames_taken (decodeFrame_append hhello.decodes hhello.full undefinedFlag.wire) hhello.full hfirst,
      hhello.consumed,
      drop_left, drainFrames_error true (e := .undefinedFlags 8) (by decide +kernel)]
    rfl
  · rw [drainFrames_ended (decodeFrame_append hresync.decodes hresync.full _) hresync.full hearly]
  · exact congrArg Prod.snd (readStream_ended hfs htaken hhello hagain resyncFrame.wire)
  · exact congrArg Prod.snd (readStream_ended hfs htaken hbad hrefused resyncFrame.wire)

end Ferryx.Fxsh
