import Ferryx.Theorems.AuthorPrompt
import Ferryx.Theorems.InputSafety

/-! An author that holds a lease and has nothing outstanding types some bytes. They are written, and after the
acknowledgements the author is where it was, with all counters advanced (`Flowing.round`). -/

namespace Ferryx
open Std Lib

namespace Author
variable {β : Type} {a : Author β} {c : Cur β}

theorem reevaluate_eq_send (hf : a.finalizing = ∅) (hfoc : a.focused = true)
    (hr : a.needsReclaim = false) (hc : a.cur ≠ none) (hd : a.disowned = ∅) : a.reevaluate = a.send := by
  have hq : a.queryDue = a := by
    rw [queryDue, hf]
    rfl
  have hidle : a.releaseIdle = a := by simp [releaseIdle, hfoc]
  have hdue : a.requestDue = a := by
    obtain ⟨c, hc⟩ := Option.ne_none_iff_exists'.mp hc
    unfold requestDue
    split
    · simp [nextRequest, hc, hr, hd]
    · rfl
  rw [reevaluate, hq, hidle, hdue]

theorem send_one (hc : a.cur = some c) (hr : a.needsReclaim = false) (ht : a.sendTimer = false) (hi : a.inflight = ∅)
    (hb : c.seg.base = c.accepted) (hpos : 0 < c.seg.bytes.length) (hle : c.seg.bytes.length ≤ chunk) : a.send = { a with
      nextId := a.nextId + 1
      inflight := (∅ : ExtTreeMap Nat (Nat × Nat)).insert (a.nextId + 1) (c.accepted, c.accepted + c.seg.bytes.length)
      out := a.out ++ [.write (a.nextId + 1) c.session c.epoch c.accepted c.seg.bytes] } := by
  have hchunk : chunk ≤ sendWindow := by decide
  have hend : min (c.seg.base + c.seg.bytes.length) (c.accepted + sendWindow) = c.accepted + c.seg.bytes.length := by
    omega
  have hsent : a.sentEnd c.accepted = c.accepted := by
    rw [sentEnd, hi]
    exact Nat.max_self _
  have hstop : min (c.accepted + c.seg.bytes.length) (c.accepted + chunk) = c.accepted + c.seg.bytes.length := by omega
  have hsize : a.inflight.size < maxInflight ∧ c.accepted < c.accepted + c.seg.bytes.length := by
    refine ⟨?_, by omega⟩
    rw [hi]
    decide
  have hchunk' : a.sendChunk c c.accepted (c.accepted + c.seg.bytes.length) = { a with
      nextId := a.nextId + 1
      inflight := (∅ : ExtTreeMap Nat (Nat × Nat)).insert (a.nextId + 1) (c.accepted, c.accepted + c.seg.bytes.length)
      out := a.out ++ [.write (a.nextId + 1) c.session c.epoch c.accepted c.seg.bytes] } := by
    simp [sendChunk, takeId, push, slice, hb, hi]
  unfold send
  simp only [hr, ht, Bool.or_self, Bool.false_eq_true, if_false, hc, hend, hsent]
  rw [show maxInflight = 3 + 1 from rfl, sendLoop]
  rw [if_pos hsize]
  simp only [hstop, hchunk']
  rw [sendLoop, if_neg (fun h => Nat.lt_irrefl _ h.2)]
  simp [hr, ht, hc]

theorem send_nothing (hc : a.cur = some c) (hi : a.inflight = ∅) (hb : c.seg.base = c.accepted) (hn : c.seg.bytes = []) :
    a.send = a := by
  have hend : min (c.seg.base + c.seg.bytes.length) (c.accepted + sendWindow) = c.accepted := by
    rw [hn, hb]
    simp
  have hsent : a.sentEnd c.accepted = c.accepted := by
    rw [sentEnd, hi]
    exact Nat.max_self _
  unfold send
  split
  · rfl
  · simp only [hc, hend, hsent]
    rw [show maxInflight = 3 + 1 from rfl, sendLoop]
    simp

/-- An author with a lease, so many bytes accepted and committed, and these in flight. -/
structure Flows (a : Author β) (s e acc com : Nat) (bytes : List β) (inflight : ExtTreeMap Nat (Nat × Nat))
    (out : List (Out β)) : Prop where
  focused : a.focused = true
  pending : a.pending = none
  retryTimer : a.retryTimer = false
  sendTimer : a.sendTimer = false
  needsReclaim : a.needsReclaim = false
  finalizing : a.finalizing = ∅
  disowned : a.disowned = ∅
  cur : a.cur = some ⟨s, e, acc, com, ⟨acc, bytes⟩⟩
  inflight : a.inflight = inflight
  out : a.out = out

section Flows
variable {s e acc com : Nat} {bytes : List β} {inflight : ExtTreeMap Nat (Nat × Nat)} {out : List (Out β)}

theorem Flows.reevaluate (h : a.Flows s e acc com bytes ∅ out) (hpos : 0 < bytes.length) (hle : bytes.length ≤ chunk) :
    a.reevaluate.Flows s e acc com bytes ((∅ : ExtTreeMap Nat (Nat × Nat)).insert (a.nextId + 1) (acc, acc + bytes.length))
      (out ++ [.write (a.nextId + 1) s e acc bytes]) := by
  have hc : a.cur ≠ none := by
    rw [h.cur]
    exact nofun
  rw [reevaluate_eq_send h.finalizing h.focused h.needsReclaim hc h.disowned,
    send_one h.cur h.needsReclaim h.sendTimer h.inflight rfl hpos hle]
  exact ⟨h.focused, h.pending, h.retryTimer, h.sendTimer, h.needsReclaim, h.finalizing, h.disowned, h.cur, rfl,
    congrArg (· ++ _) h.out⟩

theorem Flows.reevaluate_nothing (h : a.Flows s e acc com [] ∅ out) : a.reevaluate.Flows s e acc com [] ∅ out := by
  have hc : a.cur ≠ none := by
    rw [h.cur]
    exact nofun
  rw [reevaluate_eq_send h.finalizing h.focused h.needsReclaim hc h.disowned, send_nothing h.cur h.inflight rfl rfl]
  exact h

theorem Flows.typeBytes (h : a.Flows s e acc com [] ∅ []) (hpos : 0 < bytes.length) (hle : bytes.length ≤ chunk) :
    (a.typeBytes bytes).Flows s e acc com bytes
      ((∅ : ExtTreeMap Nat (Nat × Nat)).insert (a.nextId + 1) (acc, acc + bytes.length))
      [.write (a.nextId + 1) s e acc bytes] := by
  have ht : (a.startTyping.appendTyped bytes).Flows s e acc com bytes ∅ [] ∧ (a.startTyping.appendTyped bytes).nextId =
      a.nextId := by
    have hcur : a.startTyping.cur = some ⟨s, e, acc, com, ⟨acc, []⟩⟩ := h.cur
    simp only [appendTyped, hcur, List.nil_append]
    exact ⟨⟨h.focused, h.pending, h.retryTimer, h.sendTimer, h.needsReclaim, h.finalizing, h.disowned, rfl, h.inflight,
      h.out⟩, rfl⟩
  have hr := ht.1.reevaluate hpos hle
  rw [ht.2] at hr
  exact hr

theorem Flows.holds (h : a.Flows s e acc com bytes inflight out) : a.holds s e = true := by
  simp [Author.holds, current, h.cur]

theorem Flows.onInputAck {t : Nat} {x : Nat × Nat}
    (h : a.Flows s e acc com bytes ((∅ : ExtTreeMap Nat (Nat × Nat)).insert t x) out)
    (hpos : 0 < bytes.length) : (a.onInputAck (some t) s e (acc + bytes.length) com).Flows s e (acc + bytes.length) com [] ∅
      out := by
  have herase : a.inflight.erase t = ∅ := by
    rw [h.inflight]
    ext
    simp
  have hans : a.answered (some t) s e = { a with inflight := ∅ } := by
    simp only [answered, h.holds, if_true, herase]
  have hgrow : ({ a with inflight := ∅ } : Author β).ackGrows s e (acc + bytes.length) com = true := by
    simp [ackGrows, h.cur, hpos]
  have hack : ({ a with inflight := ∅ } : Author β).ack s e (acc + bytes.length) com =
      { a with inflight := ∅, cur := some ⟨s, e, acc + bytes.length, com, ⟨acc + bytes.length, []⟩⟩ } := by
    simp only [ack, h.cur, and_self, if_true, Cur.ack]
    simp [hpos]
  rw [Author.onInputAck, hans, hgrow, hack]
  refine Flows.reevaluate_nothing ⟨h.focused, h.pending, h.retryTimer, rfl, h.needsReclaim, h.finalizing, h.disowned, rfl,
    ?_, h.out⟩
  rfl

theorem Flows.onInputAck_none (h : a.Flows s e acc com [] ∅ out) (com' : Nat) (hlt : com < com') :
    (a.onInputAck none s e acc com').Flows s e acc com' [] ∅ out := by
  have hgrow : a.ackGrows s e acc com' = true := by
    simp [ackGrows, h.cur, hlt]
  have hack : a.ack s e acc com' = { a with cur := some ⟨s, e, acc, com', ⟨acc, []⟩⟩ } := by
    simp only [ack, h.cur, and_self, if_true, Cur.ack]
    simp [hlt.le]
  rw [Author.onInputAck, answered, hgrow, hack]
  refine Flows.reevaluate_nothing ⟨h.focused, h.pending, h.retryTimer, rfl, h.needsReclaim, h.finalizing, h.disowned, rfl,
    ?_, h.out⟩
  simp only [resumeSending, h.inflight]
  rfl

theorem Flows.flushed (h : a.Flows s e acc com bytes inflight out) :
    ({ a with out := [] } : Author β).Flows s e acc com bytes inflight [] :=
  ⟨h.focused, h.pending, h.retryTimer, h.sendTimer, h.needsReclaim, h.finalizing, h.disowned, h.cur, h.inflight, rfl⟩

end Flows
end Author

namespace InputLedger
variable {H β : Type}

/-- A ledger that carries this lease. -/
structure Carries (l : InputLedger H β) (i : H) (e acc com : Nat) (queue : List (Item β)) (inputBytes : Nat) : Prop where
  holder : l.holder = some i
  current : l.current = e
  entry : l.epochs[e]? = some ⟨i, acc, com, 0, false⟩
  queue : l.queue = queue
  inputBytes : l.inputBytes = inputBytes
  kept : l.retainedStart + l.retained.length = acc
  bound : l.retained.length ≤ retainedBytes
  revokees : l.revokees = []

variable {l : InputLedger H β} {i : H} {e acc com : Nat} {bytes : List β}

theorem Carries.active [DecidableEq H] {queue : List (Item β)} {inputBytes : Nat}
    (h : l.Carries i e acc com queue inputBytes) : l.active i e = true := by
  simp [InputLedger.active, h.current, h.holder, h.entry]

theorem Carries.accept (h : l.Carries i e acc com [] 0) :
    (l.accept ⟨i, acc, com, 0, false⟩ e acc bytes).Carries i e (acc + bytes.length) com [.input e bytes 0]
      bytes.length where
  holder := h.holder
  current := h.current
  entry := by simp [InputLedger.accept]
  queue := by simp [InputLedger.accept, h.queue]
  inputBytes := by simp [InputLedger.accept, h.inputBytes]
  kept := by
    have := h.kept
    simp only [InputLedger.accept, Nat.sub_self, List.drop_zero, List.length_drop, List.length_append]
    omega
  bound := by
    simp only [InputLedger.accept, Nat.sub_self, List.drop_zero, List.length_drop, List.length_append]
    omega
  revokees := h.revokees

theorem Carries.write [DecidableEq H] [WireByte β] [InputCrc] (h : l.Carries i e acc com [] 0) (hpos : 0 < bytes.length)
    (hle : bytes.length ≤ maxChunk) (hend : acc + bytes.length < 2 ^ 64) : l.write i e acc bytes (inputCrc32c bytes) =
      (l.accept ⟨i, acc, com, 0, false⟩ e acc bytes, .ok ⟨i, e, acc + bytes.length, com⟩) := by
  have hlimit : maxChunk ≤ inputQueueLimit := by decide
  have hover : l.overlapError ⟨i, acc, com, 0, false⟩ e acc bytes = none := by
    simp [overlapError]
  unfold InputLedger.write
  simp only [h.entry, h.active, Bool.not_true, Bool.false_eq_true, if_false, hover, Nat.sub_self, List.drop_zero,
    h.inputBytes,
    ne_eq, not_true_eq_false, Nat.lt_irrefl, Nat.zero_add]
  rw [if_neg (by omega), if_neg (by omega), if_pos (by omega), if_neg (by omega)]

theorem Carries.write_unverifiable [DecidableEq H] [WireByte β] [InputCrc] {start : Nat} (h : l.Carries i e acc com [] 0)
    (hpos : 0 < bytes.length) (hle : bytes.length ≤ maxChunk) (hend : start + bytes.length < 2 ^ 64)
    (hold : start + retainedBytes < acc) : l.write i e start bytes (inputCrc32c bytes) =
      ({ l.fenceCurrent with revokees := [] },
        .error (.unverifiable e acc com l.retainedStart, some (⟨i, e, 0⟩, []))) := by
  have hkept := h.kept
  have hbound := h.bound
  have hover : l.overlapError ⟨i, acc, com, 0, false⟩ e start bytes = some (.unverifiable e acc com l.retainedStart) := by
    unfold overlapError
    dsimp only
    rw [if_pos (by omega), if_pos (by omega)]
  unfold InputLedger.write
  simp only [h.entry, h.active, Bool.not_true, Bool.false_eq_true, if_false, hover, ne_eq, not_true_eq_false, h.revokees]
  rw [if_neg (by omega), if_neg (by omega), if_neg (by omega)]

theorem Carries.onWritten (h : l.Carries i e acc com [.input e bytes 0] bytes.length) :
    (l.onWritten bytes.length).2 = some ⟨i, e, acc, com + bytes.length⟩ ∧
      (l.onWritten bytes.length).1.Carries i e acc (com + bytes.length) [] 0 := by
  simp only [InputLedger.onWritten, h.queue, h.entry, Nat.sub_zero, Nat.min_self, Nat.zero_add, if_true, true_and]
  refine ⟨h.holder, h.current, getElem?_prune_of ?_ (.inl h.current.symm), rfl, ?_, h.kept, h.bound, h.revokees⟩
  · simp
  · simp [prune, h.inputBytes]

end InputLedger

namespace Net

/-- Nothing changed but for author `i` on its connection. -/
structure Elsewhere {H : Type} (n m : Net H) (i : H) : Prop where
  conn : m.conn = n.conn
  toHost : ∀ {j d}, ¬(j = i ∧ d = n.conn i) → m.toHost j d = n.toHost j d
  toClient : ∀ {j d}, ¬(j = i ∧ d = n.conn i) → m.toClient j d = n.toClient j d

theorem Elsewhere.trans {H : Type} {n m o : Net H} {i : H} (h : Elsewhere n m i) (h' : Elsewhere m o i) :
    Elsewhere n o i where
  conn := h'.conn.trans h.conn
  toHost hne := by
    rw [h'.toHost (by rwa [h.conn]), h.toHost hne]
  toClient hne := by
    rw [h'.toClient (by rwa [h.conn]), h.toClient hne]

variable {H : Type} [DecidableEq H] {n : Net H} {i : H} {s e off : Nat}

theorem Elsewhere.flush (n : Net H) (i : H) (a : Author (TypedByte H)) : Elsewhere n (n.flush i a) i where
  conn := rfl
  toHost hne := setAt_of_ne _ _ hne
  toClient _ := rfl

/-- Author `i` has epoch `e` of session `s`; all it typed is accepted and written, and nothing is in flight. -/
structure Resting (n : Net H) (i : H) (s e off : Nat) : Prop where
  author : (n.authors i).Flows s e off off [] ∅ []
  toHost : n.toHost i (n.conn i) = []
  toClient : n.toClient i (n.conn i) = []
  ledger : (n.hosts s).Carries i e off off [] 0

/-- The author types, the session gets the write and the author its answer, the PTY takes the bytes, and the
    author is told. -/
def round (n : Net H) (i : H) (s : Nat) (vals : List UInt8) : List (Action H) :=
  [.typeBytes i vals, .deliverToHost i (n.conn i) false false, .deliverToClient i (n.conn i), .ptyWrite s vals.length,
    .deliverToClient i (n.conn i)]

theorem flush_author (n : Net H) (i : H) (a : Author (TypedByte H)) : (n.flush i a).authors i = { a with out := [] } :=
  Function.update_self ..

theorem flush_toHost (n : Net H) (i : H) (a : Author (TypedByte H)) :
    (n.flush i a).toHost i (n.conn i) = n.toHost i (n.conn i) ++ a.out.filter Out.isMessage :=
  setAt_self ..

theorem round_typeBytes (h : n.Resting i s e off) {vals : List UInt8} (hpos : 0 < vals.length) (hle : vals.length ≤ chunk) :
    ∃ t x bytes, bytes.length = vals.length ∧
      ((n.typeBytes i vals).authors i).Flows s e off off bytes ((∅ : ExtTreeMap Nat (Nat × Nat)).insert t x) [] ∧
      (n.typeBytes i vals).toHost i (n.conn i) = [.write t s e off bytes] ∧
      (n.typeBytes i vals).toClient = n.toClient ∧ (n.typeBytes i vals).hosts = n.hosts ∧
        Elsewhere n (n.typeBytes i vals) i := by
  have hlen : (TypedByte.tag i (n.typedFor i).length vals).length = vals.length := TypedByte.length_tag ..
  have hflow := h.author.typeBytes (hlen ▸ hpos) (hlen ▸ hle)
  refine ⟨(n.authors i).nextId + 1, (off, off + (TypedByte.tag i (n.typedFor i).length vals).length), _, hlen, ?_, ?_,
    rfl, rfl, ?_⟩
  · rw [Net.typeBytes, flush_author]
    exact hflow.flushed
  · rw [Net.typeBytes, flush_toHost _ i, hflow.out]
    exact congrArg (· ++ _) h.toHost
  · have helse := Elsewhere.flush { n with
      typedFor := Function.update n.typedFor i (n.typedFor i ++ vals.map fun _ => (n.authors i).session) } i
      ((n.authors i).typeBytes (TypedByte.tag i (n.typedFor i).length vals))
    exact ⟨helse.conn, helse.toHost, helse.toClient⟩

theorem round_write [InputCrc] {n : Net H} {t acc com : Nat} {bytes : List (TypedByte H)}
    (hto : n.toHost i (n.conn i) = [.write t s e acc bytes]) (hcl : n.toClient i (n.conn i) = [])
    (hl : (n.hosts s).Carries i e acc com [] 0) (hpos : 0 < bytes.length) (hle : bytes.length ≤ maxChunk)
    (hend : acc + bytes.length < 2 ^ 64) : (n.deliverToHost i (n.conn i) false false).authors = n.authors ∧
      (n.deliverToHost i (n.conn i) false false).toHost i (n.conn i) = [] ∧
      (n.deliverToHost i (n.conn i) false false).toClient i (n.conn i) = [.ack (some t) s e (acc + bytes.length) com] ∧
      ((n.deliverToHost i (n.conn i) false false).hosts s).Carries i e (acc + bytes.length) com [.input e bytes 0]
        bytes.length ∧
      Elsewhere n (n.deliverToHost i (n.conn i) false false) i := by
  have hstep :
      n.deliverToHost i (n.conn i) false false = (({ n with toHost := setAt n.toHost i (n.conn i) [] } : Net H).setHost s
        ((n.hosts s).accept ⟨i, acc, com, 0, false⟩ e acc bytes)).reply i (n.conn i)
          (.ack (some t) s e (acc + bytes.length) com) := by
    simp only [deliverToHost, hto, ne_eq, not_true_eq_false, false_and, if_false, hostHandle, handleWrite,
      hl.write hpos hle hend]
  rw [hstep]
  refine ⟨rfl, setAt_self .., ?_, ?_, rfl, fun hne => setAt_of_ne _ _ hne, fun hne => setAt_of_ne _ _ hne⟩
  · exact (setAt_self ..).trans (congrArg (· ++ _) hcl)
  · exact Eq.subst (motive := fun l => InputLedger.Carries l i e _ com _ _) (setHost_host _ s _).symm hl.accept

theorem round_deliver {n : Net H} {m : ToClient} (hcl : n.toClient i (n.conn i) = [m])
    (hout : ((n.authors i).handle m).out = []) :
    (n.deliverToClient i (n.conn i)).authors i = (n.authors i).handle m ∧
      (n.deliverToClient i (n.conn i)).toHost i (n.conn i) = n.toHost i (n.conn i) ∧
      (n.deliverToClient i (n.conn i)).toClient i (n.conn i) = [] ∧
      (n.deliverToClient i (n.conn i)).hosts = n.hosts ∧ Elsewhere n (n.deliverToClient i (n.conn i)) i := by
  have hstep : n.deliverToClient i (n.conn i) =
      ({ n with toClient := setAt n.toClient i (n.conn i) [] } : Net H).flush i ((n.authors i).handle m) := by
    simp [deliverToClient, hcl]
  rw [hstep]
  refine ⟨?_, ?_, setAt_self .., rfl, rfl, fun hne => setAt_of_ne _ _ hne, fun hne => setAt_of_ne _ _ hne⟩
  · rw [flush_author, ← hout]
  · rw [show n.conn i = ({ n with toClient := setAt n.toClient i (n.conn i) [] } : Net H).conn i from rfl,
      flush_toHost, hout]
    simp

theorem round_ptyWrite {n : Net H} {acc com : Nat} {bytes : List (TypedByte H)} (hcl : n.toClient i (n.conn i) = [])
    (hl : (n.hosts s).Carries i e acc com [.input e bytes 0] bytes.length) :
    (n.ptyWrite s bytes.length).authors = n.authors ∧ (n.ptyWrite s bytes.length).toHost = n.toHost ∧
      (n.ptyWrite s bytes.length).toClient i (n.conn i) = [.ack none s e acc (com + bytes.length)] ∧
      ((n.ptyWrite s bytes.length).hosts s).Carries i e acc (com + bytes.length) [] 0 ∧
        Elsewhere n (n.ptyWrite s bytes.length) i := by
  obtain ⟨hack, hl'⟩ := hl.onWritten
  have hhead : (n.hosts s).head = some bytes := by simp [InputLedger.head, hl.queue]
  have hstep : ∃ tap, n.ptyWrite s bytes.length =
      ({ n.setHost s ((n.hosts s).onWritten bytes.length).1 with tap } : Net H).event i
        (.ack none s e acc (com + bytes.length)) := by
    simp only [Net.ptyWrite, hhead, Nat.min_self, hack]
    exact ⟨_, rfl⟩
  obtain ⟨tap, hstep⟩ := hstep
  rw [hstep]
  refine ⟨rfl, rfl, ?_, ?_, rfl, fun _ => rfl, fun hne => setAt_of_ne _ _ hne⟩
  · exact (setAt_self ..).trans (congrArg (· ++ _) hcl)
  · exact Eq.subst (motive := fun l => InputLedger.Carries l i e _ _ _ _) (setHost_host _ s _).symm hl'

theorem Resting.round [InputCrc] (h : n.Resting i s e off) {vals : List UInt8} (hpos : 0 < vals.length)
    (hle : vals.length ≤ chunk)
    (hend : off + vals.length < 2 ^ 64) : ((n.round i s vals).foldl step n).Resting i s e (off + vals.length) ∧
      Elsewhere n ((n.round i s vals).foldl step n) i := by
  obtain ⟨t, x, bytes, hlen, ha₁, hto₁, hcl₁, hh₁, he₁⟩ := round_typeBytes h hpos hle
  have hc₁ : n.conn i = (n.typeBytes i vals).conn i := rfl
  have hround :
      (n.round i s vals).foldl step n = (((((n.typeBytes i vals).deliverToHost i (n.conn i) false false).deliverToClient i
      (n.conn i)).ptyWrite s vals.length).deliverToClient i (n.conn i)) := rfl
  rw [hround]
  generalize n.typeBytes i vals = n₁ at *
  rw [hc₁] at hto₁ ⊢
  rw [← hlen] at hpos hle hend ⊢
  -- The session accepts the bytes.
  obtain ⟨ha₂, hto₂, hcl₂, hl₂, he₂⟩ := round_write (n := n₁) hto₁ (by rw [hcl₁, ← hc₁]; exact h.toClient)
      (hh₁ ▸ h.ledger) hpos hle hend
  generalize n₁.deliverToHost i (n₁.conn i) false false = n₂ at *
  rw [← congrFun he₂.conn i] at hto₂ hcl₂ ⊢
  have hf₃ := (ha₂ ▸ ha₁ : (n₂.authors i).Flows _ _ _ _ _ _ _).onInputAck hpos
  obtain ⟨ha₃, hto₃, hcl₃, hh₃, he₃⟩ := round_deliver hcl₂ hf₃.out
  generalize n₂.deliverToClient i (n₂.conn i) = n₃ at *
  rw [← congrFun he₃.conn i] at hto₃ hcl₃ ⊢
  -- The PTY takes them.
  obtain ⟨ha₄, hto₄, hcl₄, hl₄, he₄⟩ := round_ptyWrite (n := n₃) hcl₃ (hh₃ ▸ hl₂)
  generalize n₃.ptyWrite s bytes.length = n₄ at *
  rw [← congrFun he₄.conn i] at hcl₄ ⊢
  have hf₄ : (n₄.authors i).Flows s e (off + bytes.length) off [] ∅ [] := by
    rw [ha₄, ha₃]
    exact hf₃
  have hf₅ := hf₄.onInputAck_none (off + bytes.length) (by omega)
  obtain ⟨ha₅, hto₅, hcl₅, hh₅, he₅⟩ := round_deliver hcl₄ hf₅.out
  have helse := (((he₁.trans he₂).trans he₃).trans he₄).trans he₅
  refine ⟨⟨ha₅ ▸ hf₅, ?_, ?_, hh₅ ▸ hl₄⟩, helse⟩
  · rw [congrFun he₅.conn i, hto₅, hto₄, congrFun he₄.conn i, hto₃, congrFun he₃.conn i, hto₂]
  · rw [congrFun he₅.conn i, hcl₅]

theorem Resting.rounds [InputCrc] {ok : Net H → Action H → Prop} (hok : ∀ {m : Net H} {vals a}, a ∈ m.round i s vals →
    ∀ o, ok o a)
    (h : n.Resting i s e off) {k : Nat} (hend : off + k * chunk < 2 ^ 64) :
    ∃ m, (network H).Run ok n m ∧ m.Resting i s e (off + k * chunk) ∧ Elsewhere n m i := by
  induction k with
  | zero => exact ⟨n, .refl, by simpa using h, rfl, fun _ => rfl, fun _ => rfl⟩
  | succ k ih =>
    have hk : (k + 1) * chunk = k * chunk + chunk := Nat.succ_mul k chunk
    obtain ⟨m, hrun, hm, helse⟩ := ih (by omega)
    have hlen : (List.replicate chunk (0 : UInt8)).length = chunk := List.length_replicate
    have hpos : 0 < (List.replicate chunk (0 : UInt8)).length := by rw [hlen]; decide
    obtain ⟨hm', helse'⟩ := hm.round hpos hlen.le (by omega)
    refine ⟨_, hrun.trans ?_, by rw [hk, ← Nat.add_assoc]; rwa [hlen] at hm', helse.trans helse'⟩
    have hacts : ∀ (as : List (Action H)) (o : Net H), (∀ a ∈ as, ∀ o, ok o a) →
        (network H).Run ok o (as.foldl step o) := by
      intro as
      induction as with
      | nil => exact fun o _ => .refl
      | cons a as ih =>
        intro o ha
        exact (Relation.ReflTransGen.single ⟨a, ha a List.mem_cons_self o, rfl⟩).trans
          (ih (o.step a) fun a' ha' => ha a' (List.mem_cons_of_mem _ ha'))
    exact hacts _ m fun a ha => hok ha

theorem Resting.lateWrite [InputCrc] (h : n.Resting i s e off) {c t start : Nat} {bytes : List (TypedByte H)}
    (hc : c ≠ n.conn i)
    (hto : n.toHost i c = [.write t s e start bytes]) (hcl : n.toClient i c = []) (hpos : 0 < bytes.length)
    (hle : bytes.length ≤ maxChunk) (hend : start + bytes.length < 2 ^ 64) (hold : start + retainedBytes < off) {m : Net H}
    (hm : m = (n.deliverToHost i c false false).deliverToClient i c) :
    (m.hosts s).holder = none ∧ (m.hosts s).current = e ∧ m.authors = n.authors ∧ m.conn = n.conn ∧ m.toHost i c = [] ∧
      m.toClient i c = [] ∧ ∀ {j d}, ¬(j = i ∧ d = c) → m.toHost j d = n.toHost j d ∧ m.toClient j d = n.toClient j d := by
  have hfence : n.deliverToHost i c false false = ((({ n with toHost := setAt n.toHost i c [] } : Net H).setHost s
      { (n.hosts s).fenceCurrent with revokees := [] }).reply i c (.lost s e 0)) := by
    simp only [deliverToHost, hto, Bool.false_eq_true, and_false, if_false, hostHandle, handleWrite,
      h.ledger.write_unverifiable hpos hle hend hold]
    rfl
  have hlost : (n.deliverToHost i c false false).toClient i c = [.lost s e 0] := by
    rw [hfence]
    exact (setAt_self ..).trans (congrArg (· ++ _) hcl)
  have hconn : c ≠ (n.deliverToHost i c false false).conn i := by
    rw [hfence]
    exact hc
  have hdrop : m = { n.deliverToHost i c false false with
      toClient := setAt (n.deliverToHost i c false false).toClient i c [] } := by
    rw [hm, deliverToClient, hlost]
    exact if_pos hconn
  rw [hdrop, hfence]
  refine ⟨?_, ?_, rfl, rfl, setAt_self .., setAt_self .., fun hne => ⟨setAt_of_ne _ _ hne, ?_⟩⟩
  · exact Eq.subst (motive := fun l : InputLedger H (TypedByte H) => l.holder = none) (setHost_host _ s _).symm rfl
  · exact Eq.subst (motive := fun l : InputLedger H (TypedByte H) => l.current = e)
      (setHost_host _ s _).symm h.ledger.current
  · exact (setAt_of_ne _ _ hne).trans (setAt_of_ne _ _ hne)

end Net
end Ferryx
