import Ferryx.Input
import Ferryx.Lib.KeyedLog
import Ferryx.Lib.TreeMap

/-! The books of an input ledger. What it accepted is what its PTY was given and what is queued (`log`), each byte with its
epoch; the counters count the log, and only the holder's epoch grows (`Books`). `Grows` is what an operation may do to the
log. -/

namespace Ferryx
open Std Lib List Option ExtTreeMap

namespace InputLedger
variable {H β : Type} {e : Nat} {bytes : List β}

/-- All bytes accepted: written and queued, with their epochs. -/
def log (l : InputLedger H β) (tap : List (Nat × β)) : List (Nat × β) := tap ++ l.queue.flatMap Item.log

/-- The epoch that is open for writes. -/
def Active (l : InputLedger H β) (e : Nat) : Prop := l.holder.isSome ∧ l.current = e

/-- Epoch `e` was granted and is over: no byte is accepted in it any more. -/
def Closed (l : InputLedger H β) (e : Nat) : Prop := e ≤ l.current ∧ ¬l.Active e

/-- The counters of an epoch count its bytes in the log. -/
structure EntryOk (l : InputLedger H β) (tap : List (Nat × β)) (e : Nat) (x : EpochLedger H) : Prop where
  accepted : x.accepted = (entriesAt e (l.log tap)).length
  committed : x.committed = (entriesAt e tap).length
  dropped : x.pendingDropped = 0
  pos : 1 ≤ e
  le : e ≤ l.current
  fenced : ¬l.Active e → x.fenced = true

/-- The queue and the table of epochs are those of the log. -/
structure Books (l : InputLedger H β) (tap : List (Nat × β)) : Prop where
  items : ∀ it ∈ l.queue, ∃ e bytes w, it = .input e bytes w ∧ w < bytes.length ∧ e ∈ l.epochs
  entry : ∀ {e : Nat} {x : EpochLedger H}, l.epochs[e]? = some x → EntryOk l tap e x
  order : (l.log tap).Pairwise fun p q => p.1 ≤ q.1
  bound : ∀ p ∈ l.log tap, p.1 ≤ l.current
  held : ∀ {h : H}, l.holder = some h → ∃ x, l.epochs[l.current]? = some x ∧ x.holder = h ∧ x.fenced = false
  retained : l.retained = (entriesAt l.current (l.log tap)).drop l.retainedStart
  retainedStart : l.retainedStart ≤ (entriesAt l.current (l.log tap)).length

/-- What an operation may do: the PTY takes more, and only the active epoch accepts more. -/
structure Grows (l l' : InputLedger H β) (tap tap' : List (Nat × β)) : Prop where
  taken : tap <+: tap'
  accepts : ∀ e, entriesAt e (l.log tap) <+: entriesAt e (l'.log tap')
  idle : ∀ e, ¬l.Active e → entriesAt e (l'.log tap') = entriesAt e (l.log tap)
  pruned : ∀ e, e ∉ l'.epochs → entriesAt e (l'.log tap') = entriesAt e (l.log tap)
  current : l.current ≤ l'.current
  closed : ∀ {e}, l.Closed e → l'.Closed e

/-- An operation that accepts nothing and grants nothing: at most the lease is lost. -/
structure Steady (l l' : InputLedger H β) : Prop where
  queue : l'.queue = l.queue
  current : l'.current = l.current
  holder : l'.holder = none ∨ l'.holder = l.holder
  lastRequest : ∀ i, l.lastRequest i ≤ l'.lastRequest i

section Grows
variable {l l' : InputLedger H β} {tap tap' : List (Nat × β)}

theorem Grows.of_log (htap : tap <+: tap') (hlog : l'.log tap' = l.log tap) (hcur : l.current ≤ l'.current)
    (hclosed : ∀ {e}, l.Closed e → l'.Closed e) : Grows l l' tap tap' where
  taken := htap
  accepts e := by rw [hlog]
  idle e _ := by rw [hlog]
  pruned e _ := by rw [hlog]
  current := hcur
  closed := hclosed

theorem log_of_queue (h : l'.queue = l.queue) : l'.log tap = l.log tap := by
  simp only [InputLedger.log, h]

theorem Active.congr (hh : l'.holder = l.holder) (hc : l'.current = l.current) : l'.Active e ↔ l.Active e := by
  simp only [Active, hh, hc]

theorem Closed.congr (hh : l'.holder = l.holder) (hc : l'.current = l.current) (h : l.Closed e) : l'.Closed e := by
  refine ⟨hc ▸ h.1, ?_⟩
  rw [Active.congr hh hc]
  exact h.2

theorem Steady.refl (l : InputLedger H β) : Steady l l := ⟨rfl, rfl, .inr rfl, fun _ => le_rfl⟩

theorem Closed.of_vacant (hh : l'.holder = none) (hc : l'.current = l.current) (h : l.Closed e) : l'.Closed e := by
  refine ⟨hc ▸ h.1, ?_⟩
  simp [Active, hh]

theorem Steady.grows (h : Steady l l') : Grows l l' tap tap := by
  refine .of_log (prefix_refl _) (log_of_queue h.queue) h.current.ge fun hcl => ?_
  rcases h.holder with hh | hh
  · exact hcl.of_vacant hh h.current
  · exact hcl.congr hh h.current

end Grows

theorem books_new : Books (.new : InputLedger H β) [] := by
  constructor <;> simp [new, InputLedger.log]

section Parts
variable {l : InputLedger H β} {tap : List (Nat × β)} {e : Nat} {x : EpochLedger H}

theorem mem_queue_epochs_of_input {e w : Nat} (h : Item.input e bytes w ∈ l.queue) : e ∈ l.queue.filterMap Item.epoch? :=
  mem_filterMap.mpr ⟨_, h, rfl⟩

theorem getElem?_prune (h : l.prune.epochs[e]? = some x) : l.epochs[e]? = some x := by
  simp only [prune] at h
  simp at h
  exact h.1

theorem getElem?_prune_of (h : l.epochs[e]? = some x)
    (hk : e = l.current ∨ e ∈ l.queue.filterMap Item.epoch?) : l.prune.epochs[e]? = some x := by
  simp only [prune]
  rcases hk with rfl | hk <;> simp_all

theorem Books.prune (B : Books l tap) : Books l.prune tap := { B with
  items it hit := by
    obtain ⟨e, bytes, w, rfl, hw, hmem⟩ := B.items it hit
    refine ⟨e, bytes, w, rfl, hw, ?_⟩
    obtain ⟨x, hx⟩ := mem_iff_lookup.mp hmem
    exact mem_iff_lookup.mpr ⟨_, getElem?_prune_of hx (.inr (mem_queue_epochs_of_input hit))⟩
  entry h :=
    have E := B.entry (getElem?_prune h)
    ⟨E.accepted, E.committed, E.dropped, E.pos, E.le, E.fenced⟩
  held h := by
    obtain ⟨x, hx, hh⟩ := B.held h
    exact ⟨x, getElem?_prune_of hx (.inl rfl), hh⟩ }

theorem getElem?_fenceCurrent (e : Nat) : l.fenceCurrent.epochs[e]? =
    if l.current = e then l.epochs[e]?.map (fun x => { x with fenced := true }) else l.epochs[e]? := by
  simp only [fenceCurrent, lookup_modify]

theorem entry_fenceCurrent (h : l.fenceCurrent.epochs[e]? = some x) :
    ∃ y, l.epochs[e]? = some y ∧ x.holder = y.holder ∧ x.accepted = y.accepted ∧ x.committed = y.committed ∧
      x.pendingDropped = y.pendingDropped ∧ (y.fenced = true ∨ l.current = e → x.fenced = true) := by
  rw [getElem?_fenceCurrent] at h
  split at h
  · obtain ⟨y, hy, rfl⟩ := map_eq_some_iff.mp h
    exact ⟨y, hy, rfl, rfl, rfl, rfl, fun _ => rfl⟩
  next hne => exact ⟨x, h, rfl, rfl, rfl, rfl, fun hf => hf.resolve_right hne⟩

theorem mem_fenceCurrent : e ∈ l.fenceCurrent.epochs ↔ e ∈ l.epochs := by
  simp only [← isSome_getElem?_iff_mem, getElem?_fenceCurrent]
  split <;> simp

theorem Books.fenceCurrent (B : Books l tap) : Books l.fenceCurrent tap := { B with
  items it hit := by
    obtain ⟨e, bytes, w, rfl, hw, hmem⟩ := B.items it hit
    exact ⟨e, bytes, w, rfl, hw, mem_fenceCurrent.mpr hmem⟩
  entry {e x} h := by
    obtain ⟨y, hy, -, ha, hc, hd, hf⟩ := entry_fenceCurrent h
    have E := B.entry hy
    refine ⟨ha.trans E.accepted, hc.trans E.committed, hd.trans E.dropped, E.pos, E.le, fun _ => hf ?_⟩
    by_cases hact : l.Active e
    · exact .inr hact.2
    · exact .inl (E.fenced hact)
  held h := by cases h }

theorem Books.congr {l' : InputLedger H β} (B : Books l tap) (hq : l'.queue = l.queue) (he : l'.epochs = l.epochs)
    (hc : l'.current = l.current) (hh : l'.holder = l.holder) (hr : l'.retained = l.retained)
    (hs : l'.retainedStart = l.retainedStart) : Books l' tap where
  items it hit := by
    rw [he]
    exact B.items it (hq ▸ hit)
  entry h := by
    rw [he] at h
    have E := B.entry h
    refine ⟨?_, E.committed, E.dropped, E.pos, hc ▸ E.le, fun hact => E.fenced ?_⟩
    · rw [log_of_queue hq]
      exact E.accepted
    · rwa [Active.congr hh hc] at hact
  order := by rw [log_of_queue hq]; exact B.order
  bound := by rw [log_of_queue hq, hc]; exact B.bound
  held h := by
    rw [he, hc]
    exact B.held (hh ▸ h)
  retained := by rw [log_of_queue hq, hc, hr, hs]; exact B.retained
  retainedStart := by rw [log_of_queue hq, hc, hs]; exact B.retainedStart

theorem books_fence (B : Books l tap) : Books { l.fenceCurrent with revokees := [] } tap :=
  B.fenceCurrent.congr rfl rfl rfl rfl rfl rfl

theorem steady_fence : Steady l { l.fenceCurrent with revokees := [] } :=
  ⟨rfl, rfl, .inl rfl, fun _ => le_rfl⟩

theorem Books.entriesAt_of_gt (B : Books l tap) (he : l.current < e) : entriesAt e (l.log tap) = [] :=
  entriesAt_eq_nil fun p hp => Nat.ne_of_lt (Nat.lt_of_le_of_lt (B.bound p hp) he)

/-- The next epoch opens for `who`. -/
def openEpoch (l : InputLedger H β) (who : H) (revokees : List H) : InputLedger H β :=
  { l.fenceCurrent with
    current := l.current + 1
    epochs := l.fenceCurrent.epochs.insert (l.current + 1) ⟨who, 0, 0, 0, false⟩
    holder := some who, retained := [], retainedStart := 0, revokees }

theorem Books.openEpoch (B : Books l tap) (who : H) (revokees : List H) : Books (l.openEpoch who revokees) tap where
  items it hit := by
    obtain ⟨e, bytes, w, rfl, hw, hmem⟩ := B.items it hit
    exact ⟨e, bytes, w, rfl, hw, mem_insert.mpr (.inr (mem_fenceCurrent.mpr hmem))⟩
  entry {e x} h := by
    simp only [InputLedger.openEpoch, lookup_insert] at h
    split at h
    next he =>
      have hnil := B.entriesAt_of_gt (e := e) (by omega)
      have hnil' : entriesAt e tap = [] := by
        have := hnil
        rw [InputLedger.log, entriesAt_append] at this
        exact (append_eq_nil_iff.mp this).1
      obtain rfl := some.inj h
      refine ⟨?_, ?_, rfl, by omega, he.ge, fun hact => absurd ⟨rfl, he⟩ hact⟩
      · exact (congrArg length hnil).symm
      · exact (congrArg length hnil').symm
    next hne =>
      have E := B.fenceCurrent.entry h
      exact ⟨E.accepted, E.committed, E.dropped, E.pos, Nat.le_succ_of_le E.le, fun _ =>
        E.fenced (by simp [Active, InputLedger.fenceCurrent])⟩
  order := B.order
  bound p hp := Nat.le_succ_of_le (B.bound p hp)
  held {h} hh := by
    cases hh
    exact ⟨⟨who, 0, 0, 0, false⟩, by simp [InputLedger.openEpoch], rfl, rfl⟩
  retained := by
    have : entriesAt (l.current + 1) (l.log tap) = [] := B.entriesAt_of_gt (Nat.lt_succ_self _)
    exact (congrArg (drop 0) this).symm
  retainedStart := Nat.zero_le _

theorem grows_openEpoch (who : H) (revokees : List H) : Grows l (l.openEpoch who revokees) tap tap :=
  .of_log (prefix_refl _) (log_of_queue rfl) (Nat.le_succ _) fun {e} h =>
    ⟨Nat.le_succ_of_le h.1, fun hact => by
      have := hact.2
      have := h.1
      simp only [openEpoch] at *
      omega⟩

theorem grows_prune_openEpoch (who : H) (revokees : List H) : Grows l (l.openEpoch who revokees).prune tap tap :=
  have G : Grows l (l.openEpoch who revokees) tap tap := grows_openEpoch who revokees
  .of_log (prefix_refl _) (log_of_queue rfl) G.current G.closed

end Parts

section Ops
variable [DecidableEq H] {l : InputLedger H β} {tap : List (Nat × β)} {l' : InputLedger H β} {who : H} {g : Granted H}

theorem fresh_cases (l : InputLedger H β) (who : H) (id : Nat) : (id ≤ l.lastRequest who ∧ l.fresh who id = (l, false)) ∨
      l.lastRequest who < id ∧ l.fresh who id = ({ l with lastRequest := Function.update l.lastRequest who id }, true) := by
  unfold fresh
  by_cases h : id ≤ l.lastRequest who
  · exact .inl ⟨h, if_pos h⟩
  · exact .inr ⟨Nat.lt_of_not_le h, if_neg h⟩

theorem acquire_eq (h : l.acquire who = some (l', g)) : g.epoch = l.current + 1 ∧ ∃ revokees,
    l' = (l.openEpoch who revokees).prune := by
  unfold acquire at h
  split at h
  · cases h
  · dsimp only at h
    split at h
    · split at h
      · cases h
        exact ⟨rfl, _, rfl⟩
      · cases h
        exact ⟨rfl, _, rfl⟩
    · cases h
      exact ⟨rfl, _, rfl⟩

theorem acquire_revoked (h : l.acquire who = some (l', g)) :
    (∃ prev, l.holder = some prev ∧ prev ≠ who ∧ g.revoked = some ⟨prev, l.current, l.current + 1⟩ ∧
        l'.revokees = (l.revokees.filter fun r => r ≠ who) ++ [prev]) ∨ (∀ prev, l.holder = some prev → prev = who) ∧
          g.revoked = none ∧
        l'.revokees = l.revokees.filter fun r => r ≠ who := by
  unfold acquire at h
  split at h
  · cases h
  · dsimp only at h
    split at h
    next prev hprev =>
      split at h
      next hne =>
        cases h
        exact .inl ⟨prev, hprev, hne, rfl, rfl⟩
      next heq =>
        cases h
        refine .inr ⟨fun r hr => ?_, rfl, rfl⟩
        rw [hprev] at hr
        cases hr
        exact of_not_not heq
    next hnone =>
      cases h
      exact .inr ⟨fun r hr => (nomatch hnone.symm.trans hr), rfl, rfl⟩

theorem books_acquire (B : Books l tap) (h : l.acquire who = some (l', g)) : Books l' tap := by
  obtain ⟨-, revokees, rfl⟩ := acquire_eq h
  exact (B.openEpoch who revokees).prune

theorem grows_acquire (h : l.acquire who = some (l', g)) : Grows l l' tap tap := by
  obtain ⟨-, revokees, rfl⟩ := acquire_eq h
  exact grows_prune_openEpoch who revokees

theorem Books.active_iff (B : Books l tap) : l.active who e = true ↔ l.current = e ∧ l.holder = some who := by
  simp only [active, Bool.and_eq_true, beq_iff_eq]
  constructor
  · rintro ⟨⟨rfl, hh⟩, -⟩
    exact ⟨rfl, hh⟩
  · rintro ⟨rfl, hh⟩
    obtain ⟨x, hx, -, hf⟩ := B.held hh
    exact ⟨⟨rfl, hh⟩, by simp [hx, hf]⟩

theorem release_cases (l : InputLedger H β) (who : H) (epoch : Nat) :
    (l.active who (if epoch = 0 then l.current else epoch) = true ∧
        l.release who epoch = ({ l.fenceCurrent with revokees := [] }, true, l.revokees)) ∨
      l.active who (if epoch = 0 then l.current else epoch) = false ∧ l.release who epoch = (l, false, []) := by
  simp only [release]
  generalize (if epoch = 0 then l.current else epoch) = e
  cases l.active who e <;> simp

theorem books_release (B : Books l tap) (who : H) (epoch : Nat) : Books (l.release who epoch).1 tap := by
  rcases release_cases l who epoch with ⟨-, h⟩ | ⟨-, h⟩ <;> rw [h]
  · exact books_fence B
  · exact B

theorem steady_release (who : H) (epoch : Nat) : Steady l (l.release who epoch).1 := by
  rcases release_cases l who epoch with ⟨-, h⟩ | ⟨-, h⟩ <;> rw [h]
  · exact steady_fence
  · exact .refl l

/-- Who waits for the lease after a reclaim by `who` that another holder answers. -/
def waiting (l : InputLedger H β) (who : H) : List H :=
  if l.holder.any (fun h => h ≠ who) && !l.revokees.contains who then l.revokees ++ [who] else l.revokees

theorem reclaim_cases (l : InputLedger H β) (who : H) (epoch : Nat) :
    (l.epochs[epoch]? = none ∧ l.reclaim who epoch = (l, .epochUnknown)) ∨
      ∃ x, l.epochs[epoch]? = some x ∧
        ((l.active who epoch = true ∧ l.reclaim who epoch = (l, .ok x.accepted x.committed)) ∨
          l.active who epoch = false ∧ l.reclaim who epoch = ({ l with revokees := l.waiting who },
            .lost l.activeEpoch x.accepted x.committed x.pendingDropped)) := by
  unfold reclaim waiting
  cases hx : l.epochs[epoch]? with
  | none => exact .inl ⟨rfl, rfl⟩
  | some x =>
    refine .inr ⟨x, rfl, ?_⟩
    cases hact : l.active who epoch with
    | true => exact .inl ⟨rfl, by simp⟩
    | false =>
      refine .inr ⟨rfl, ?_⟩
      simp only [Bool.false_eq_true, if_false]
      split <;> rfl

theorem reclaim_eq (l : InputLedger H β) (who : H) (epoch : Nat) :
    ∃ revokees, (l.reclaim who epoch).1 = { l with revokees } := by
  rcases l.reclaim_cases who epoch with ⟨-, h⟩ | ⟨x, -, ⟨-, h⟩ | ⟨-, h⟩⟩ <;> exact ⟨_, by rw [h]⟩

theorem books_reclaim (B : Books l tap) (who : H) (epoch : Nat) : Books (l.reclaim who epoch).1 tap := by
  obtain ⟨revokees, h⟩ := reclaim_eq l who epoch
  rw [h]
  exact B.congr rfl rfl rfl rfl rfl rfl

theorem steady_reclaim (who : H) (epoch : Nat) : Steady l (l.reclaim who epoch).1 := by
  obtain ⟨revokees, h⟩ := reclaim_eq l who epoch
  rw [h]
  exact ⟨rfl, rfl, .inr rfl, fun _ => le_rfl⟩

end Ops

section Write
variable [DecidableEq H] [WireByte β] [InputCrc] {l : InputLedger H β} {tap : List (Nat × β)}

/-- The outcomes of a write of `bytes` at `start` into `epoch`, by the branches of `write`. -/
inductive WriteOutcome (l : InputLedger H β) (who : H) (epoch start : Nat) (bytes : List β) :
    InputLedger H β → Except (WriteError × Option (Revoke H × List H)) (Ack H) → Prop
  | stale (fa : Nat) (hact : l.active who epoch = false) :
    WriteOutcome l who epoch start bytes l (.error (.staleLease l.activeEpoch fa, none))
  | refused (err : WriteError) (herr : err = .tooLarge ∨ err = .corruptFrame ∨ err = .offsetOverflow) :
    WriteOutcome l who epoch start bytes l (.error (err, none))
  | gap (x : EpochLedger H) (hact : l.active who epoch = true) (hx : l.epochs[epoch]? = some x)
      (hlt : x.accepted < start) : WriteOutcome l who epoch start bytes l (.error (.gap x.accepted, none))
  | fence (x : EpochLedger H) (err : WriteError) (hact : l.active who epoch = true) (hx : l.epochs[epoch]? = some x)
      (hle : start ≤ x.accepted) (herr : l.overlapError x epoch start bytes = some err) :
    WriteOutcome l who epoch start bytes { l.fenceCurrent with revokees := [] }
      (.error (err, some (⟨who, epoch, 0⟩, l.revokees)))
  | full (x : EpochLedger H) (hact : l.active who epoch = true) (hx : l.epochs[epoch]? = some x) :
    WriteOutcome l who epoch start bytes l (.error (.backpressure x.accepted, none))
  | accept (x : EpochLedger H) (hact : l.active who epoch = true) (hx : l.epochs[epoch]? = some x)
      (hle : start ≤ x.accepted) (hlt : x.accepted < start + bytes.length) :
    WriteOutcome l who epoch start bytes (l.accept x epoch start bytes)
      (.ok ⟨who, epoch, start + bytes.length, x.committed⟩)
  | again (x : EpochLedger H) (hact : l.active who epoch = true) (hx : l.epochs[epoch]? = some x)
      (hle : start + bytes.length ≤ x.accepted) :
    WriteOutcome l who epoch start bytes l (.ok ⟨who, epoch, x.accepted, x.committed⟩)

theorem write_outcome (l : InputLedger H β) (who : H) (epoch start : Nat) (bytes : List β) (crc : UInt32) :
    WriteOutcome l who epoch start bytes (l.write who epoch start bytes crc).1 (l.write who epoch start bytes crc).2 := by
  unfold write
  split
  next hx => exact .stale 0 (by simp [active, hx])
  next x hx =>
    cases hact : l.active who epoch
    · exact .stale x.accepted hact
    · simp only [Bool.not_true, Bool.false_eq_true, if_false]
      split
      · exact .refused _ (.inl rfl)
      split
      · exact .refused _ (.inr (.inl rfl))
      split
      · exact .refused _ (.inr (.inr rfl))
      split
      next hlt => exact .gap x hact hx hlt
      next hle =>
        split
        next err herr => exact .fence x err hact hx (Nat.le_of_not_lt hle) herr
        · split
          next hlt =>
            split
            · exact .full x hact hx
            · exact .accept x hact hx (Nat.le_of_not_lt hle) hlt
          next hge => exact .again x hact hx (Nat.le_of_not_lt hge)

omit [WireByte β] [InputCrc] [DecidableEq H] in
theorem log_accept (x : EpochLedger H) (epoch start : Nat) (bytes : List β) : (l.accept x epoch start bytes).log tap =
      l.log tap ++ (bytes.drop (x.accepted - start)).map fun b => (epoch, b) := by
  simp [log, accept, Item.log]

omit [WireByte β] [InputCrc] [DecidableEq H] in
theorem entriesAt_accept (x : EpochLedger H) (epoch start e : Nat) (bytes : List β) :
    entriesAt e ((l.accept x epoch start bytes).log tap) =
      entriesAt e (l.log tap) ++ if epoch = e then bytes.drop (x.accepted - start) else [] := by
  rw [log_accept, entriesAt_append, entriesAt_map_same]

omit [WireByte β] [InputCrc] [DecidableEq H] in
theorem books_accept (B : Books l tap) {x : EpochLedger H} {start : Nat}
    (hx : l.epochs[l.current]? = some x) (hle : start ≤ x.accepted) (hlt : x.accepted < start + bytes.length) :
    Books (l.accept x l.current start bytes) tap where
  items it hit := by
    rcases mem_append.mp hit with hit | hit
    · obtain ⟨e, bs, w, rfl, hw, hmem⟩ := B.items it hit
      exact ⟨e, bs, w, rfl, hw, mem_insert.mpr (.inr hmem)⟩
    · obtain rfl := mem_singleton.mp hit
      refine ⟨l.current, _, 0, rfl, ?_, mem_insert.mpr (.inl (by simp))⟩
      rw [length_drop]
      omega
  entry {e y} hy := by
    simp only [InputLedger.accept, lookup_insert] at hy
    split at hy
    next he =>
      obtain rfl := some.inj hy
      subst he
      have E := B.entry hx
      refine ⟨?_, E.committed, E.dropped, E.pos, E.le, E.fenced⟩
      rw [entriesAt_accept, if_pos rfl, length_append, length_drop, ← E.accepted]
      simp only
      omega
    next he =>
      have E := B.entry hy
      refine ⟨?_, E.committed, E.dropped, E.pos, E.le, E.fenced⟩
      rw [entriesAt_accept, if_neg he, append_nil]
      exact E.accepted
  order := by
    rw [log_accept, pairwise_append]
    refine ⟨B.order, ?_, ?_⟩
    · rw [pairwise_map]
      exact pairwise_of_forall fun _ _ => le_rfl
    · intro p hp q hq
      obtain ⟨b, -, rfl⟩ := mem_map.mp hq
      exact B.bound p hp
  bound p hp := by
    rw [log_accept] at hp
    rcases mem_append.mp hp with hp | hp
    · exact B.bound p hp
    · obtain ⟨b, -, rfl⟩ := mem_map.mp hp
      exact le_rfl
  held {h} hh := by
    obtain ⟨y, hy, hyh, hyf⟩ := B.held hh
    obtain rfl := some.inj (hx.symm.trans hy)
    refine ⟨{ x with accepted := start + bytes.length }, ?_, hyh, hyf⟩
    simp only [InputLedger.accept, lookup_insert, if_true]
  retained := by
    have hE : entriesAt l.current ((l.accept x l.current start bytes).log tap) =
        entriesAt l.current (l.log tap) ++ bytes.drop (x.accepted - start) := by
      rw [entriesAt_accept, if_pos rfl]
    simp only [InputLedger.accept] at hE ⊢
    rw [hE, ← drop_drop, drop_append_of_le_length B.retainedStart, ← B.retained]
  retainedStart := by
    have hE : entriesAt l.current ((l.accept x l.current start bytes).log tap) =
        entriesAt l.current (l.log tap) ++ bytes.drop (x.accepted - start) := by
      rw [entriesAt_accept, if_pos rfl]
    have hlen := congrArg length B.retained
    have hs := B.retainedStart
    rw [length_drop] at hlen
    simp only [InputLedger.accept] at hE ⊢
    rw [hE, length_append, length_append]
    omega

omit [WireByte β] [InputCrc] [DecidableEq H] in
theorem grows_accept {x : EpochLedger H} {start : Nat} (hact : l.Active l.current) :
    Grows l (l.accept x l.current start bytes) tap tap where
  taken := prefix_refl _
  accepts e := by
    rw [entriesAt_accept]
    exact prefix_append _ _
  idle e he := by
    have hne : l.current ≠ e := fun h => he (h ▸ hact)
    rw [entriesAt_accept, if_neg hne, append_nil]
  pruned e he := by
    have hne : l.current ≠ e := by
      rintro rfl
      exact he (mem_insert.mpr (.inl (by simp)))
    rw [entriesAt_accept, if_neg hne, append_nil]
  current := le_rfl
  closed h := h

end Write

section Written
variable {l : InputLedger H β} {tap : List (Nat × β)}
variable {bytes : List β} {x : EpochLedger H} {e w k : Nat} {rest : List (Item β)}

theorem log_split (hq : l.queue = .input e bytes w :: rest) :
    l.log tap = (tap ++ ((bytes.drop w).take k).map fun b => (e, b)) ++
      ((bytes.drop (w + k)).map fun b => (e, b)) ++ rest.flatMap Item.log := by
  simp only [log, hq, flatMap_cons, Item.log, append_assoc, append_cancel_left_eq]
  rw [← append_assoc, ← map_append, ← drop_drop, take_append_drop]

/-- The PTY took `k` bytes of epoch `e`. -/
def commit (l : InputLedger H β) (e : Nat) (x : EpochLedger H) (k : Nat) (queue : List (Item β)) : InputLedger H β :=
  { l with
    inputBytes := l.inputBytes - k
    epochs := l.epochs.insert e { x with committed := x.committed + k }
    queue }

theorem onWritten_eq (hq : l.queue = .input e bytes w :: rest) (hx : l.epochs[e]? = some x) (hk : k ≤ bytes.length - w) :
    l.onWritten k = (if w + k = bytes.length then (l.commit e x k rest).prune
        else l.commit e x k (.input e bytes (w + k) :: rest), some ⟨x.holder, e, x.accepted, x.committed + k⟩) := by
  simp only [onWritten, hq, hx, Nat.min_eq_left hk]
  split <;> rfl

theorem books_commit (B : Books l tap) {rest queue : List (Item β)} (hq : l.queue = .input e bytes w :: rest)
    (hx : l.epochs[e]? = some x)
    (hqueue : queue.flatMap Item.log = ((bytes.drop (w + k)).map fun b => (e, b)) ++ rest.flatMap Item.log)
    (hitems : ∀ it ∈ queue, it ∈ rest ∨ it = .input e bytes (w + k) ∧ w + k < bytes.length) (hk : k ≤ bytes.length - w) :
    Books (l.commit e x k queue) (tap ++ ((bytes.drop w).take k).map fun b => (e, b)) := by
  have hlog : (l.commit e x k queue).log (tap ++ ((bytes.drop w).take k).map fun b => (e, b)) = l.log tap := by
    rw [log_split hq (k := k), append_assoc _ _ (rest.flatMap Item.log), ← hqueue]
    rfl
  exact {
    items := fun it hit => by
      rcases hitems it hit with hit | ⟨rfl, hlt⟩
      · obtain ⟨e', bs, w', rfl, hw, hmem⟩ := B.items it (hq ▸ mem_cons_of_mem _ hit)
        exact ⟨e', bs, w', rfl, hw, mem_insert.mpr (.inr hmem)⟩
      · exact ⟨e, bytes, w + k, rfl, hlt, mem_insert.mpr (.inl (by simp))⟩
    entry := fun {e' y} hy => by
      simp only [commit, lookup_insert] at hy
      split at hy
      next he =>
        obtain rfl := some.inj hy
        subst he
        have E := B.entry hx
        refine ⟨by rw [hlog]; exact E.accepted, ?_, E.dropped, E.pos, E.le, E.fenced⟩
        rw [entriesAt_append, entriesAt_map_same, if_pos rfl, length_append, ← E.committed, length_take, length_drop,
          Nat.min_eq_left hk]
      next he =>
        have E := B.entry hy
        refine ⟨by rw [hlog]; exact E.accepted, ?_, E.dropped, E.pos, E.le, E.fenced⟩
        rw [entriesAt_append, entriesAt_map_same, if_neg he, append_nil]
        exact E.committed
    order := by rw [hlog]; exact B.order
    bound := by rw [hlog]; exact B.bound
    held := fun {h} hh => by
      obtain ⟨y, hy, hyh, hyf⟩ := B.held hh
      by_cases he : e = l.current
      · subst he
        obtain rfl := some.inj (hx.symm.trans hy)
        refine ⟨{ x with committed := x.committed + k }, ?_, hyh, hyf⟩
        simp only [commit, lookup_insert, if_true]
      · refine ⟨y, ?_, hyh, hyf⟩
        simp only [commit, lookup_insert, if_neg he]
        exact hy
    retained := by rw [hlog]; exact B.retained
    retainedStart := by rw [hlog]; exact B.retainedStart }

theorem books_onWritten (B : Books l tap)
    (hq : l.queue = .input e bytes w :: rest) (hx : l.epochs[e]? = some x) (hk : k ≤ bytes.length - w) :
    Books (l.onWritten k).1 (tap ++ ((bytes.drop w).take k).map fun b => (e, b)) := by
  have hw : w < bytes.length := by
    obtain ⟨_, _, _, heq, hw, -⟩ := B.items _ (hq ▸ mem_cons_self)
    cases heq
    exact hw
  rw [onWritten_eq hq hx hk]
  dsimp only
  split
  next hdone =>
    refine (books_commit B hq hx ?_ (fun it hit => .inl hit) hk).prune
    simp [hdone]
  next hne =>
    refine books_commit B hq hx rfl (fun it hit => ?_) hk
    rcases mem_cons.mp hit with rfl | hit
    · exact .inr ⟨rfl, by omega⟩
    · exact .inl hit

section
variable (hq : l.queue = .input e bytes w :: rest) (hx : l.epochs[e]? = some x) (hk : k ≤ bytes.length - w)
include hq hx hk

theorem log_onWritten : (l.onWritten k).1.log (tap ++ ((bytes.drop w).take k).map fun b => (e, b)) = l.log tap := by
  rw [onWritten_eq hq hx hk]
  dsimp only
  split
  next hdone =>
    rw [log_split hq (k := k), hdone, drop_length]
    simp [log, commit, prune]
  · rw [log_split hq (k := k), append_assoc _ _ (rest.flatMap Item.log)]
    rfl

theorem onWritten_frame : (l.onWritten k).1.current = l.current ∧ (l.onWritten k).1.holder = l.holder ∧
      (l.onWritten k).1.lastRequest = l.lastRequest ∧ (l.onWritten k).1.revokees = l.revokees := by
  rw [onWritten_eq hq hx hk]
  dsimp only
  split <;> exact ⟨rfl, rfl, rfl, rfl⟩

end

theorem grows_onWritten (tap : List (Nat × β))
    (hq : l.queue = .input e bytes w :: rest) (hx : l.epochs[e]? = some x) (hk : k ≤ bytes.length - w) :
    Grows l (l.onWritten k).1 tap (tap ++ ((bytes.drop w).take k).map fun b => (e, b)) := by
  obtain ⟨hc, hh, -⟩ := onWritten_frame hq hx hk
  exact .of_log (prefix_append _ _) (log_onWritten hq hx hk) hc.ge (Closed.congr hh hc)

end Written
end InputLedger
end Ferryx
