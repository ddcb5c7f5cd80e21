import Ferryx.Session
import Ferryx.Theorems.Ledger

/-! The bytes accepted in an epoch are those reported by the writer thread, those queued and those dropped, in order
(`Accounts`), if nothing is accepted or reported after the end of the child (`quietEnd`). -/

namespace Ferryx
open Std Lib Function List Option ExtTreeMap Item Session

def Item.unwritten {β : Type} : Item β → List β
  | .input _ bytes written => bytes.drop written
  | .vt bytes written => bytes.drop written

namespace InputLedger
variable {H β : Type}

theorem head_eq (l : InputLedger H β) : l.head = l.queue.head?.map unwritten := rfl

theorem entriesAt_input (epoch written e : Nat) (bytes : List β) :
    entriesAt e (input epoch bytes written).log = if epoch = e then bytes.drop written else [] :=
  entriesAt_map_same ..

/-- The accepted bytes `A` of each epoch are the reported ones `R`, the queued ones and the dropped ones `D`. -/
structure Accounts (l : InputLedger H β) (A R D : Nat → List β) : Prop where
  items : ∀ e ∈ l.queue.filterMap Item.epoch?, e ∈ l.epochs
  whole : ∀ e, A e = R e ++ l.queuedOf e ++ D e
  entry : ∀ {e : Nat} {x : EpochLedger H}, l.epochs[e]? = some x →
    x.accepted = (A e).length ∧ x.committed = (R e).length ∧ x.pendingDropped = (D e).length
  ahead : ∀ {e}, l.current < e → A e = []
  alive : l.dead = false → ∀ e, D e = []
  drained : l.dead = true → l.queue = []

variable {l l' : InputLedger H β} {A R D : Nat → List β}

theorem accounts_new : Accounts (.new : InputLedger H β) (fun _ => []) (fun _ => []) (fun _ => []) := by
  constructor <;> simp [new, queuedOf]

/-- The same counters, whatever else changed. -/
def SameCounters (x y : EpochLedger H) : Prop :=
  x.accepted = y.accepted ∧ x.committed = y.committed ∧ x.pendingDropped = y.pendingDropped

theorem Accounts.frame (B : Accounts l A R D) (hq : l'.queue = l.queue) (hd : l'.dead = l.dead)
    (hc : l.current ≤ l'.current)
    (hentry : ∀ {e x}, l'.epochs[e]? = some x →
      (∃ y, l.epochs[e]? = some y ∧ SameCounters x y) ∨ l.current < e ∧ ∃ who, SameCounters x ⟨who, 0, 0, 0, false⟩)
    (hitems : ∀ e ∈ l.queue.filterMap epoch?, e ∈ l.epochs → e ∈ l'.epochs) : Accounts l' A R D where
  items e he := by
    rw [hq] at he
    exact hitems e he (B.items e he)
  whole e := by
    rw [queuedOf, hq]
    exact B.whole e
  entry {e x} hx := by
    rcases hentry hx with ⟨y, hy, ha, hcm, hp⟩ | ⟨hlt, who, ha, hcm, hp⟩
    · rw [ha, hcm, hp]
      exact B.entry hy
    · have hnil := B.whole e
      rw [B.ahead hlt, eq_comm, append_eq_nil_iff, append_eq_nil_iff] at hnil
      rw [ha, hcm, hp, B.ahead hlt, hnil.1.1, hnil.2]
      exact ⟨rfl, rfl, rfl⟩
  ahead h := B.ahead (Nat.lt_of_le_of_lt hc h)
  alive h := B.alive (hd ▸ h)
  drained h := hq.trans (B.drained (hd ▸ h))

theorem SameCounters.refl (x : EpochLedger H) : SameCounters x x := ⟨rfl, rfl, rfl⟩

section
variable (B : Accounts l A R D)
include B

theorem Accounts.prune : Accounts l.prune A R D :=
  B.frame rfl rfl le_rfl (fun hx => .inl ⟨_, getElem?_prune hx, .refl _⟩) fun e he hmem => by
    obtain ⟨x, hx⟩ := mem_iff_lookup.mp hmem
    exact mem_iff_lookup.mpr ⟨_, getElem?_prune_of hx (.inr he)⟩

theorem Accounts.fence : Accounts { l.fenceCurrent with revokees := [] } A R D :=
  B.frame rfl rfl le_rfl (fun hx => by
      obtain ⟨y, hy, -, ha, hc, hd, -⟩ := entry_fenceCurrent hx
      exact .inl ⟨y, hy, ha, hc, hd⟩)
    fun e _ hmem => mem_fenceCurrent.mpr hmem

theorem Accounts.openEpoch (who : H) (revokees : List H) : Accounts (l.openEpoch who revokees) A R D := by
  refine B.frame rfl rfl (Nat.le_succ _) (fun {e x} hx => ?_) fun e _ hmem => ?_
  · simp only [InputLedger.openEpoch, lookup_insert] at hx
    split at hx
    next he =>
      obtain rfl := some.inj hx
      exact .inr ⟨by omega, who, .refl _⟩
    · obtain ⟨y, hy, -, ha, hc, hd, -⟩ := entry_fenceCurrent hx
      exact .inl ⟨y, hy, ha, hc, hd⟩
  · exact mem_insert.mpr (.inr (mem_fenceCurrent.mpr hmem))

theorem Accounts.same (hq : l'.queue = l.queue) (he : l'.epochs = l.epochs) (hd : l'.dead = l.dead)
    (hc : l'.current = l.current) : Accounts l' A R D :=
  B.frame hq hd hc.ge (fun hx => .inl ⟨_, he ▸ hx, .refl _⟩) fun _ _ hmem => he ▸ hmem

theorem Accounts.pushVtReply (bytes : List β) : Accounts (l.pushVtReply bytes).1 A R D := by
  unfold InputLedger.pushVtReply
  split
  · exact B.same rfl rfl rfl rfl
  next h =>
    have hlive : l.dead = false := by simp_all
    have hq : ∀ e, queuedOf { l with vtBytes := l.vtBytes + bytes.length, queue := l.queue ++ [.vt bytes 0] } e =
        l.queuedOf e := fun e => by simp [queuedOf, Item.log]
    exact ⟨fun e he => B.items e (by simpa [epoch?] using he), fun e => by rw [hq]; exact B.whole e, B.entry, B.ahead,
      B.alive, fun hdead => by cases hlive.symm.trans hdead⟩

theorem Accounts.pushVtReplies (replies : List (List β)) :
    Accounts (replies.foldl (fun l reply => (l.pushVtReply reply).1) l) A R D := by
  induction replies generalizing l with
  | nil => exact B
  | cons r rs ih => exact ih (B.pushVtReply r)

end

theorem queuedOf_accept (x : EpochLedger H) (epoch start : Nat) (bytes : List β) (e : Nat) :
    (l.accept x epoch start bytes).queuedOf e =
      l.queuedOf e ++ if epoch = e then bytes.drop (x.accepted - start) else [] := by
  simp [queuedOf, InputLedger.accept, Item.log, entriesAt_map_same, -map_drop]

theorem Accounts.accept (B : Accounts l A R D) (hlive : l.dead = false) {x : EpochLedger H} {epoch start : Nat}
    {bytes : List β}
    (hx : l.epochs[epoch]? = some x) (hcur : epoch ≤ l.current) (hle : start ≤ x.accepted)
      (hlt : x.accepted < start + bytes.length) :
    Accounts (l.accept x epoch start bytes) (update A epoch (A epoch ++ bytes.drop (x.accepted - start))) R D where
  items e he := by
    simp only [InputLedger.accept, filterMap_append, mem_append] at he ⊢
    rcases he with he | he
    · exact mem_insert.mpr (.inr (B.items e he))
    · simp only [filterMap_cons, epoch?, filterMap_nil, mem_singleton] at he
      exact mem_insert.mpr (.inl (by simp [he]))
  whole e := by
    rw [queuedOf_accept, B.alive hlive e, append_nil]
    by_cases he : epoch = e
    · subst he
      rw [update_self, if_pos rfl, B.whole epoch, B.alive hlive epoch]
      simp
    · rw [update_of_ne (Ne.symm he), if_neg he, B.whole e, B.alive hlive e]
      simp
  entry {e y} hy := by
    simp only [InputLedger.accept, lookup_insert] at hy
    split at hy
    next he =>
      subst he
      obtain rfl := some.inj hy
      obtain ⟨ha, hc, hd⟩ := B.entry hx
      refine ⟨?_, hc, hd⟩
      rw [update_self, length_append, length_drop, ← ha]
      show start + bytes.length = _
      omega
    next hne =>
      rw [update_of_ne (Ne.symm hne)]
      exact B.entry hy
  ahead {e} h := by
    have h : l.current < e := h
    rw [update_of_ne (by omega)]
    exact B.ahead h
  alive := B.alive
  drained h := nomatch hlive.symm.trans h

theorem Accounts.report (B : Accounts l A R D) {P : Nat → List β} (hlive : l.dead = false) (hd : l'.dead = l.dead)
    (hc : l'.current = l.current) (hq : ∀ e, l.queuedOf e = P e ++ l'.queuedOf e)
    (hitems : ∀ e ∈ l'.queue.filterMap epoch?, e ∈ l'.epochs)
    (hentry : ∀ {e x}, l'.epochs[e]? = some x → ∃ y, l.epochs[e]? = some y ∧ x.accepted = y.accepted ∧
      x.committed = y.committed + (P e).length ∧ x.pendingDropped = y.pendingDropped) :
        Accounts l' A (fun e => R e ++ P e) D where
  items := hitems
  whole e := by
    rw [B.whole e, hq e]
    simp
  entry {e x} hx := by
    obtain ⟨y, hy, ha, hcm, hp⟩ := hentry hx
    rw [ha, hcm, hp, length_append, (B.entry hy).2.1]
    exact ⟨(B.entry hy).1, rfl, (B.entry hy).2.2⟩
  ahead h := B.ahead (hc ▸ h)
  alive h := B.alive hlive
  drained h := nomatch (hd.trans hlive).symm.trans h

/-- What a report of `n` written bytes says of epoch `e`. -/
def reportOn (it : Item β) (n : Nat) (e : Nat) : List β := (entriesAt e it.log).take n

theorem Accounts.onWritten (B : Accounts l A R D) {it : Item β} {rest : List (Item β)} {n : Nat} (hq : l.queue = it :: rest)
    (hn : n ≤ it.unwritten.length) : Accounts (l.onWritten n).1 A (fun e => R e ++ reportOn it n e) D := by
  have hlive : l.dead = false := by
    by_contra hdead
    simp [B.drained (Bool.eq_true_of_not_eq_false hdead)] at hq
  have hitems := B.items
  rw [hq] at hitems
  cases it with
  | vt bytes written =>
    have hrest : ∀ e ∈ rest.filterMap Item.epoch?, e ∈ l.epochs := fun e he => hitems e (by simpa [Item.epoch?] using he)
    have hnone : ∀ e, reportOn (.vt bytes written) n e = [] := fun e => by simp [reportOn, Item.log]
    have hentry : ∀ {e x}, l.epochs[e]? = some x → ∃ y, l.epochs[e]? = some y ∧ x.accepted = y.accepted ∧
        x.committed = y.committed + (reportOn (.vt bytes written) n e).length ∧ x.pendingDropped = y.pendingDropped :=
      fun {e x} hx => ⟨x, hx, rfl, by rw [hnone]; rfl, rfl⟩
    simp only [InputLedger.onWritten, hq]
    split
    · refine Accounts.prune (B.report hlive rfl rfl (fun e => ?_) hrest hentry)
      rw [hnone]
      simp [queuedOf, hq, Item.log]
    · refine B.report hlive rfl rfl (fun e => ?_) (fun e he => hrest e (by simpa [Item.epoch?] using he)) hentry
      rw [hnone]
      simp [queuedOf, hq, Item.log]
  | input epoch bytes written =>
    obtain ⟨x, hx⟩ := mem_iff_lookup.mp (hitems epoch mem_cons_self)
    have hunw : (bytes.drop written).length = bytes.length - written := length_drop
    have hmin : min n (bytes.length - written) = n := Nat.min_eq_left (hunw ▸ hn)
    have hrep : ∀ e, reportOn (.input epoch bytes written) n e = if epoch = e then (bytes.drop written).take n else [] := by
      intro e
      rw [reportOn, entriesAt_input]
      split <;> simp
    have hlen : ((bytes.drop written).take n).length = n := length_take_of_le hn
    -- The head is as before, but for the bytes written.
    have hcut : ∀ e, l.queuedOf e = reportOn (.input epoch bytes written) n e ++
        entriesAt e ((Item.input epoch bytes (written + n)).log ++ rest.flatMap Item.log) := by
      intro e
      rw [hrep, entriesAt_append, entriesAt_input, ← append_assoc, queuedOf, hq, flatMap_cons, entriesAt_append,
        entriesAt_input]
      split <;> simp [← drop_drop]
    have hentry : ∀ {e y}, (l.epochs.insert epoch { x with committed := x.committed + n })[e]? = some y →
        ∃ z, l.epochs[e]? = some z ∧ y.accepted = z.accepted ∧
          y.committed = z.committed + (reportOn (.input epoch bytes written) n e).length ∧
            y.pendingDropped = z.pendingDropped := by
      intro e y hy
      rw [lookup_insert] at hy
      rw [hrep]
      split at hy
      next he =>
        subst he
        obtain rfl := some.inj hy
        exact ⟨x, hx, rfl, by rw [if_pos rfl, hlen], rfl⟩
      next hne => exact ⟨y, hy, rfl, by rw [if_neg hne]; rfl, rfl⟩
    have hmem : ∀ e ∈ epoch :: rest.filterMap Item.epoch?,
        e ∈ l.epochs.insert epoch { x with committed := x.committed + n } :=
      fun e he => mem_insert.mpr (.inr (hitems e he))
    simp only [InputLedger.onWritten, hq, hx, hmin]
    split
    next hdone =>
      refine Accounts.prune (B.report hlive rfl rfl (fun e => ?_) (fun e he => hmem e (mem_cons_of_mem _ he)) hentry)
      rw [hcut e, Item.log, drop_eq_nil_of_le hdone.ge]
      rfl
    · exact B.report hlive rfl rfl hcut hmem hentry

theorem getElem?_dropItems (queue : List (Item β)) (epochs : ExtTreeMap Nat (EpochLedger H)) (e : Nat) :
    (queue.foldl (fun epochs item =>
        match item with
        | .input epoch bytes written =>
          epochs.modify epoch fun e => { e with pendingDropped := e.pendingDropped + (bytes.length - written) }
        | .vt _ _ => epochs) epochs)[e]? =
      epochs[e]?.map fun x : EpochLedger H =>
        { x with pendingDropped := x.pendingDropped + (entriesAt e (queue.flatMap Item.log)).length } := by
  induction queue generalizing epochs with
  | nil => simp
  | cons it queue ih =>
    rw [foldl_cons, ih, flatMap_cons, entriesAt_append, length_append]
    cases it with
    | vt bytes written => simp [Item.log]
    | input epoch bytes written =>
      rw [entriesAt_input, lookup_modify]
      split
      · rw [Option.map_map]
        refine congrArg (Option.map · _) (funext fun x => ?_)
        simp [Nat.add_assoc]
      · simp

theorem Accounts.onDead (B : Accounts l A R D) : Accounts l.onDead A R (fun e => D e ++ l.queuedOf e) where
  items e he := nomatch he
  whole e := by
    have hnil : l.onDead.queuedOf e = [] := rfl
    rw [B.whole e, hnil, append_nil]
    cases hdead : l.dead with
    | false => simp [B.alive hdead e]
    | true => simp [queuedOf, B.drained hdead]
  entry {e x} hx := by
    obtain ⟨y, hy, rfl⟩ := map_eq_some_iff.mp ((getElem?_dropItems l.queue l.epochs e).symm.trans hx)
    obtain ⟨ha, hc, hd⟩ := B.entry hy
    exact ⟨ha, hc, by rw [length_append, ← hd]; rfl⟩
  ahead := B.ahead
  alive h := nomatch h
  drained _ := rfl

variable [DecidableEq H]

section
variable (B : Accounts l A R D)
include B

theorem Accounts.fresh (who : H) (id : Nat) : Accounts (l.fresh who id).1 A R D := by
  rcases fresh_cases l who id with ⟨-, h⟩ | ⟨-, h⟩ <;> rw [h]
  · exact B
  · exact B.same rfl rfl rfl rfl

theorem Accounts.acquire {who : H} {g : Granted H} (h : l.acquire who = some (l', g)) : Accounts l' A R D := by
  obtain ⟨-, revokees, rfl⟩ := acquire_eq h
  exact (B.openEpoch who revokees).prune

theorem Accounts.release (who : H) (epoch : Nat) : Accounts (l.release who epoch).1 A R D := by
  rcases release_cases l who epoch with ⟨-, h⟩ | ⟨-, h⟩ <;> rw [h]
  · exact B.fence
  · exact B

theorem Accounts.reclaim (who : H) (epoch : Nat) : Accounts (l.reclaim who epoch).1 A R D := by
  obtain ⟨revokees, h⟩ := reclaim_eq l who epoch
  rw [h]
  exact B.same rfl rfl rfl rfl

end

end InputLedger

namespace Hosted
open InputLedger
variable {H β : Type} {w : Hosted H β}

/-- While the child lives, the buffer in flight is the head of the queue. -/
structure InStep (s : Session H β) (flight : Option (Option Nat × List β)) : Prop where
  busy : s.writeInflight = flight.isSome
  head : ∀ {epoch buffer}, flight = some (epoch, buffer) → ∃ it rest, s.ledger.queue = it :: rest ∧ it.epoch? = epoch ∧
    it.unwritten = buffer

/-- The accounts of a session balance, and while it lives the write in flight is its own. -/
structure Kept (w : Hosted H β) : Prop where
  accounts : w.session.ledger.Accounts w.accepted w.reported w.dropped
  inStep : w.session.ledger.dead = false → InStep w.session w.flight

theorem Kept.congr {w w' : Hosted H β} (K : Kept w) (hs : w'.session = w.session) (hf : w'.flight = w.flight)
    (ha : w'.accepted = w.accepted) (hr : w'.reported = w.reported) (hd : w'.dropped = w.dropped) : Kept w' :=
  ⟨by rw [hs, ha, hr, hd]; exact K.accounts, by rw [hs, hf]; exact K.inStep⟩

def pumped (w : Hosted H β) (receiving : Bool) : Hosted H β :=
  { w with
    session := (w.session.pumpWrite receiving).1
    flight := match (w.session.pumpWrite receiving).2 with
      | some buffer => some ((w.session.pumpWrite receiving).1.ledger.queue.head?.bind Item.epoch?, buffer)
      | none => w.flight }

theorem Kept.pumped (K : Kept w) (receiving : Bool) : Kept (w.pumped receiving) := by
  unfold Hosted.pumped pumpWrite
  by_cases hfl : w.session.writeInflight = true
  · simp only [hfl, if_true]
    exact K
  · simp only [hfl, Bool.false_eq_true, if_false]
    cases hq : w.session.ledger.queue with
    | nil =>
      have hnone : w.session.ledger.head = none := by simp [head_eq, hq]
      simp only [hnone]
      exact K
    | cons it rest =>
      have hhead : w.session.ledger.head = some it.unwritten := by simp [head_eq, hq]
      simp only [hhead]
      cases receiving with
      | false => exact K
      | true =>
        refine ⟨K.accounts, fun _ => ⟨rfl, fun h => ?_⟩⟩
        simp only [if_true, Option.some.injEq, Prod.mk.injEq] at h
        refine ⟨it, rest, hq, ?_, h.2⟩
        rw [← h.1, hq]
        rfl

theorem Kept.extend (K : Kept w) {l : InputLedger H β} {A : Nat → List β} (hacc : l.Accounts A w.reported w.dropped)
    (hdead : l.dead = w.session.ledger.dead) (hq : ∃ more, l.queue = w.session.ledger.queue ++ more) :
    Kept { w with session := { w.session with ledger := l }, accepted := A } := by
  refine ⟨hacc, fun hlive => ⟨(K.inStep (hdead ▸ hlive)).busy, fun hf => ?_⟩⟩
  obtain ⟨it, rest, hit, he, hb⟩ := (K.inStep (hdead ▸ hlive)).head hf
  obtain ⟨more, hmore⟩ := hq
  exact ⟨it, rest ++ more, by rw [hmore, hit, cons_append], he, hb⟩

theorem Kept.drop (K : Kept w) {s : Session H β} (hs : s.ledger = w.session.ledger.onDead)
    (flight : Option (Option Nat × List β)) : Kept { w.recordDrop with session := s, flight := flight } := by
  refine ⟨?_, fun hlive => ?_⟩
  · rw [hs]
    exact K.accounts.onDead
  · rw [hs] at hlive
    cases hlive

theorem Kept.finishChild (K : Kept w) :
    Kept { (if w.session.exit.isNone ∧ w.session.pendingExit.isSome then w.recordDrop else w) with
      session := w.session.finishChild none, flight := w.flight } := by
  cases hexit : w.session.exit with
  | some info =>
    simp only [Session.finishChild, hexit, isSome_some, isNone_some, if_true, Bool.false_eq_true, false_and, if_false]
    exact K
  | none =>
    cases hp : w.session.pendingExit with
    | none =>
      simp only [Session.finishChild, hexit, hp, isSome_none, isNone_none, Bool.false_eq_true, and_false, if_false]
      exact K
    | some info =>
      simp only [Session.finishChild, hexit, hp, isSome_none, isNone_none, isSome_some, and_self, if_true,
        Bool.false_eq_true, if_false]
      exact K.drop rfl w.flight

theorem pushVtReplies_queue (replies : List (List β)) (l : InputLedger H β) :
    (replies.foldl (fun l reply => (l.pushVtReply reply).1) l).dead = l.dead ∧
      ∃ more, (replies.foldl (fun l reply => (l.pushVtReply reply).1) l).queue = l.queue ++ more := by
  induction replies generalizing l with
  | nil => exact ⟨rfl, [], (append_nil _).symm⟩
  | cons r rs ih =>
    obtain ⟨hd, more, hm⟩ := ih (l.pushVtReply r).1
    rw [foldl_cons, hd, hm]
    unfold pushVtReply
    split
    · exact ⟨rfl, more, rfl⟩
    · exact ⟨rfl, .vt r 0 :: more, append_assoc ..⟩

variable [DecidableEq H]

theorem Kept.request (K : Kept w) {who : H} {id : Nat} {f : InputLedger H β → InputLedger H β}
    (hf : ∀ {l : InputLedger H β}, l.Accounts w.accepted w.reported w.dropped →
      (f l).Accounts w.accepted w.reported w.dropped)
    (hq : ∀ l, (f l).queue = l.queue ∧ (f l).dead = l.dead) :
    Kept { w with session := { w.session with ledger := match w.session.ledger.fresh who id with
      | (l, false) => l
      | (l, true) => f l } } := by
  have hfr := K.accounts.fresh who id
  rcases fresh_cases w.session.ledger who id with ⟨-, h⟩ | ⟨-, h⟩ <;> rw [h] at hfr ⊢
  · exact K.extend hfr rfl ⟨[], (append_nil _).symm⟩
  · exact K.extend (hf hfr) (hq _).2 ⟨[], by rw [append_nil]; exact (hq _).1⟩

theorem acquire_ledger (s : Session H β) (who : H) (id : Nat) : s.acquire who id = { s with
    ledger := match s.ledger.fresh who id with
      | (l, false) => l
      | (l, true) => ((l.acquire who).map Prod.fst).getD l } := by
  rcases fresh_cases s.ledger who id with ⟨-, h⟩ | ⟨-, h⟩ <;> simp only [Session.acquire, h]
  split <;> simp [*]

theorem release_ledger (s : Session H β) (who : H) (id epoch : Nat) : s.release who id epoch = { s with
    ledger := match s.ledger.fresh who id with
      | (l, false) => l
      | (l, true) => (l.release who epoch).1 } := by
  rcases fresh_cases s.ledger who id with ⟨-, h⟩ | ⟨-, h⟩ <;> simp only [Session.release, h]

theorem reclaim_ledger (s : Session H β) (who : H) (id epoch : Nat) : s.reclaim who id epoch = { s with
    ledger := match s.ledger.fresh who id with
      | (l, false) => l
      | (l, true) => (l.reclaim who epoch).1 } := by
  rcases fresh_cases s.ledger who id with ⟨-, h⟩ | ⟨-, h⟩ <;> simp only [Session.reclaim, h]

theorem Kept.acquire (K : Kept w) (who : H) (id : Nat) : Kept { w with session := w.session.acquire who id } := by
  rw [acquire_ledger]
  refine K.request (f := fun l => ((l.acquire who).map Prod.fst).getD l) (fun {l} B => ?_) fun l => ?_
  · cases h : l.acquire who with
    | none => exact B
    | some g => exact B.acquire h
  · cases h : l.acquire who with
    | none => exact ⟨rfl, rfl⟩
    | some g =>
      obtain ⟨-, revokees, hl⟩ := acquire_eq h
      simp only [map_some, getD_some, hl]
      exact ⟨rfl, rfl⟩

theorem Kept.release (K : Kept w) (who : H) (id epoch : Nat) :
    Kept { w with session := w.session.release who id epoch } := by
  rw [release_ledger]
  refine K.request (f := fun l => (l.release who epoch).1) (fun B => B.release who epoch) fun l => ?_
  rcases release_cases l who epoch with ⟨-, h⟩ | ⟨-, h⟩ <;> rw [h] <;> exact ⟨rfl, rfl⟩

theorem Kept.reclaim (K : Kept w) (who : H) (id epoch : Nat) :
    Kept { w with session := w.session.reclaim who id epoch } := by
  rw [reclaim_ledger]
  refine K.request (f := fun l => (l.reclaim who epoch).1) (fun B => B.reclaim who epoch) fun l => ?_
  obtain ⟨revokees, h⟩ := reclaim_eq l who epoch
  rw [h]
  exact ⟨rfl, rfl⟩

theorem Kept.written [WireByte β] [InputCrc] (K : Kept w) {n : Nat} (hen : w.Enabled (.event (.written n)))
    (hok : w.session.ledger.dead = true → ∀ f ∈ w.flight, f.1 = none) : Kept { w.record (.written n) with
      session := { w.session with writeInflight := false, ledger := (w.session.ledger.onWritten n).1 }, flight :=
        none } := by
  obtain ⟨-, ⟨epoch, buffer⟩, hf, -, hn⟩ := hen
  refine ⟨?_, fun _ => ⟨rfl, fun h => nomatch h⟩⟩
  have hf : w.flight = some (epoch, buffer) := hf
  cases hdead : w.session.ledger.dead with
  | true =>
    -- The queue is empty, and the report is on a reply of the terminal.
    obtain rfl : epoch = none := hok hdead _ hf
    have hsame : (w.session.ledger.onWritten n).1 = w.session.ledger := by
      simp only [InputLedger.onWritten, K.accounts.drained hdead]
    simp only [record, hf, hsame]
    exact K.accounts
  | false =>
    obtain ⟨it, rest, hq, rfl, rfl⟩ := (K.inStep hdead).head hf
    have hacc := K.accounts.onWritten hq hn
    cases it with
    | vt bytes written =>
      simp only [reportOn, Item.log, entriesAt_nil, take_nil, append_nil] at hacc
      simp only [record, hf, Item.epoch?]
      exact hacc
    | input e bytes written =>
      have hrep : update w.reported e (w.reported e ++ (bytes.drop written).take n) =
          fun k => w.reported k ++ reportOn (.input e bytes written) n k := by
        funext k
        rw [reportOn, entriesAt_input, update_apply]
        by_cases hk : k = e
        · rw [if_pos hk, if_pos hk.symm, hk]
        · rw [if_neg hk, if_neg (Ne.symm hk), take_nil, append_nil]
      simp only [record, hf, Item.epoch?, Item.unwritten, hrep]
      exact hacc

section Steps
variable [WireByte β] [InputCrc] {w : Hosted H β}

/-- After the end of the child, the holder of the lease writes nothing but bytes that were accepted before, and no input is
reported as written. -/
def quietEnd (w : Hosted H β) : HostedAction H β → Prop
  | .event (.writeInput who epoch start bytes _) =>
    w.session.ledger.dead = true → w.session.ledger.active who epoch = true →
    ∀ x ∈ w.session.ledger.epochs[epoch]?, start + bytes.length ≤ x.accepted
  | .event (.written _) => w.session.ledger.dead = true → ∀ f ∈ w.flight, f.1 = none
  | _ => True

instance [DecidableEq β] (w : Hosted H β) : DecidablePred w.quietEnd
  | .event (.writeInput ..) | .event (.written _) => inferInstanceAs (Decidable (_ → _))
  | .event (.acquireLease ..) | .event (.releaseLease ..) | .event (.reclaim ..) | .event (.ptyOutput _) | .event .ptyEof
  | .event .writeFailed | .event (.childExited _) | .event .drainDone | .writerGone => isTrue trivial

instance (w : Hosted H β) : DecidablePred w.Enabled
  | .event (.written _) | .event .writeFailed => inferInstanceAs (Decidable (_ ∧ _))
  | .event (.acquireLease ..) | .event (.releaseLease ..) | .event (.reclaim ..) | .event (.writeInput ..) | .event
      (.ptyOutput _)
  | .event .ptyEof | .event (.childExited _) | .event .drainDone => isTrue trivial
  | .writerGone => inferInstanceAs (Decidable (_ = _))

theorem Kept.writeInput (K : Kept w) {who : H} {epoch start : Nat} {bytes : List β} {crc : UInt32}
    (hok : quietEnd w (.event (.writeInput who epoch start bytes crc))) :
      Kept { w.record (.writeInput who epoch start bytes crc) with
      session := { w.session with ledger := (w.session.ledger.write who epoch start bytes crc).1 }, flight :=
        w.flight } := by
  have hO := write_outcome w.session.ledger who epoch start bytes crc
  simp only [quietEnd] at hok
  simp only [record]
  generalize w.session.ledger.write who epoch start bytes crc = r at hO ⊢
  obtain ⟨l, res⟩ := r
  have hnil : ∃ more, w.session.ledger.queue = w.session.ledger.queue ++ more := ⟨[], (append_nil _).symm⟩
  cases hO with
  | stale | refused | gap | full =>
    cases w.session.ledger.epochs[epoch]? <;> exact K
  | fence =>
    cases w.session.ledger.epochs[epoch]? <;> exact K.extend K.accounts.fence rfl hnil
  | again x hact hx hle =>
    simp only [hx]
    have hsame : update w.accepted epoch (w.accepted epoch ++ bytes.drop (x.accepted - start)) = w.accepted := by
      rw [drop_eq_nil_of_le (by omega), append_nil, update_eq_self]
    rw [hsame]
    exact K
  | accept x hact hx hle hlt =>
    have hlive : w.session.ledger.dead = false := by
      by_contra hdead
      exact absurd hlt (Nat.not_lt_of_le (hok (Bool.eq_true_of_not_eq_false hdead) hact x hx))
    have hcur : epoch ≤ w.session.ledger.current := by
      simp only [active, Bool.and_eq_true, beq_iff_eq] at hact
      exact hact.1.1.le
    simp only [hx]
    exact K.extend (K.accounts.accept hlive hx hcur hle hlt) rfl ⟨_, rfl⟩

theorem kept_step {a : HostedAction H β} (hok : quietEnd w a) (hen : w.Enabled a) (K : Kept w) : Kept (w.step a) := by
  cases a with
  | writerGone => exact K.congr rfl rfl rfl rfl rfl
  | event ev =>
    cases ev with
    | acquireLease who id => exact K.acquire who id
    | releaseLease who id epoch => exact K.release who id epoch
    | reclaim who id epoch => exact K.reclaim who id epoch
    | childExited info => exact ⟨K.accounts, fun h => ⟨(K.inStep h).busy, (K.inStep h).head⟩⟩
    | ptyEof => exact K.finishChild.congr rfl rfl rfl rfl rfl
    | drainDone => exact K.finishChild.congr rfl rfl rfl rfl rfl
    | writeFailed =>
      have hdrop := K.drop (s := { w.session with writeInflight := false, ledger := w.session.ledger.onDead }) rfl none
      exact hdrop.congr rfl rfl rfl rfl rfl
    | written n => exact ((K.written hen hok).pumped w.receiving).congr rfl rfl rfl rfl rfl
    | ptyOutput replies =>
      obtain ⟨hd, hq⟩ := pushVtReplies_queue replies w.session.ledger
      exact ((K.extend (K.accounts.pushVtReplies replies) hd hq).pumped w.receiving).congr rfl rfl rfl rfl rfl
    | writeInput who epoch start bytes crc =>
      have hw := K.writeInput hok
      simp only [step, handle, onEvent, writeInput]
      cases hres : w.session.ledger.write who epoch start bytes crc with
      | mk l res =>
        rw [hres] at hw
        cases res with
        | ok ack => exact (hw.pumped w.receiving).congr rfl rfl rfl rfl rfl
        | error err => exact hw.congr rfl rfl rfl rfl rfl

theorem kept_reachable (h : (hosted H β).Reachable quietEnd w) : Kept w := by
  refine h.inv (fun hw => ?_) fun hok hs K => ?_
  · obtain rfl := hw
    exact ⟨accounts_new, fun _ => ⟨rfl, fun hf => nomatch hf⟩⟩
  · obtain ⟨hen, rfl⟩ := hs
    exact kept_step hok hen K

/-- Every accepted byte is written, dropped or queued, in this order. -/
theorem accepted_bytes_accounted (h : (hosted H β).Reachable quietEnd w) {e : Nat} {x : EpochLedger H}
    (hx : w.session.ledger.epochs[e]? = some x) :
    x.accepted = (w.accepted e).length ∧ x.committed + (w.session.ledger.queuedOf e).length + x.pendingDropped =
      x.accepted ∧
      x.committed = (w.reported e).length ∧ w.reported e = Author.slice (w.accepted e) 0 x.committed ∧
      w.session.ledger.queuedOf e = Author.slice (w.accepted e) x.committed (x.accepted - x.pendingDropped) ∧
      w.dropped e = Author.slice (w.accepted e) (x.accepted - x.pendingDropped) x.accepted := by
  have B := (kept_reachable h).accounts
  obtain ⟨ha, hc, hd⟩ := B.entry hx
  have hw := B.whole e
  generalize w.session.ledger.queuedOf e = queued at hw ⊢
  have hlen : x.committed + queued.length + x.pendingDropped = x.accepted := by
    rw [ha, hw, hc, hd, length_append, length_append]
  have hqueued : x.accepted - x.pendingDropped = (w.reported e ++ queued).length := by
    rw [length_append, ← hc]
    omega
  refine ⟨ha, hlen, hc, ?_, ?_, ?_⟩
  · rw [hw, hc, Author.slice, drop_zero, Nat.sub_zero, append_assoc, take_left]
  · rw [hqueued, length_append, hw, hc, Author.slice, Nat.add_sub_cancel_left, append_assoc, drop_left, take_left]
  · rw [hqueued, hw, Author.slice, drop_left, take_of_length_le]
    rw [length_append]
    omega

theorem reachable_handle {ok : Hosted H β → HostedAction H β → Prop} (h : (hosted H β).Reachable ok w)
    (ev : SessionEvent H β) (hok : ok w (.event ev)) (hen : w.Enabled (.event ev)) :
      (hosted H β).Reachable ok (w.handle ev) :=
  h.step hok ⟨hen, rfl⟩

end Steps

/-- One of two accepted bytes is written when the PTY fails. -/
def halfWritten : Hosted Unit UInt8 :=
  let := zeroCrc
  [.acquireLease () 1, .writeInput () 1 0 [97, 98] 0, .written 1, .writeFailed].foldl handle {}

theorem accepted_bytes_accounted_halfWritten : ∃ x, halfWritten.session.ledger.epochs[1]? = some x ∧ x.committed = 1 ∧
    halfWritten.reported 1 = [97] ∧ halfWritten.dropped 1 = Author.slice (halfWritten.accepted 1) 1 2 := by
  let := zeroCrc
  have h0 : (hosted Unit UInt8).Reachable quietEnd {} := .init rfl
  have h1 := reachable_handle h0 (.acquireLease () 1) trivial trivial
  have h2 := reachable_handle h1 (.writeInput () 1 0 [97, 98] 0) (by decide +kernel) trivial
  have h3 := reachable_handle h2 (.written 1) (by decide +kernel) (by decide +kernel)
  have h4 := reachable_handle h3 .writeFailed trivial (by decide +kernel)
  have hx : halfWritten.session.ledger.epochs[1]? = some ⟨(), 2, 1, 1, false⟩ := by decide +kernel
  obtain ⟨-, -, -, hrep, -, hdrop⟩ := accepted_bytes_accounted (w := halfWritten) h4 hx
  exact ⟨_, hx, rfl, hrep.trans (by decide +kernel), hdrop⟩

/-- The PTY reports a write after the child is gone and the session is drained. -/
def reportedLate : Hosted Unit UInt8 :=
  let := zeroCrc
  [.acquireLease () 1, .writeInput () 1 0 [97] 0, .childExited ⟨some 0, none⟩, .drainDone, .written 1].foldl handle {}

/-- The ledger has dropped the byte of `reportedLate` and has not counted it as written. -/
theorem late_report_not_committed : (@hosted Unit UInt8 _ _ zeroCrc).Reachable System.anyAction reportedLate ∧
    ∃ x, reportedLate.session.ledger.epochs[1]? = some x ∧ x.committed = 0 ∧ x.pendingDropped = 1 ∧
      reportedLate.reported 1 = [97] := by
  let := zeroCrc
  have h0 : (hosted Unit UInt8).Reachable System.anyAction {} := .init rfl
  have h1 := reachable_handle h0 (.acquireLease () 1) trivial trivial
  have h2 := reachable_handle h1 (.writeInput () 1 0 [97] 0) trivial trivial
  have h3 := reachable_handle h2 (.childExited ⟨some 0, none⟩) trivial trivial
  have h4 := reachable_handle h3 .drainDone trivial trivial
  have h5 := reachable_handle h4 (.written 1) trivial (by decide +kernel)
  exact ⟨h5, ⟨(), 1, 0, 1, false⟩, by decide +kernel⟩

end Hosted
end Ferryx
