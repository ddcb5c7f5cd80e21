import Ferryx.Theorems.NetBooks

/-! # The books are kept by every handler of an author -/

namespace Ferryx
open Std Lib Function List Author TypedByte

namespace Author
variable {β : Type} {a : Author β}

theorem reevaluate_cur (h : a.focused = true ∨ a.unacceptedLen ≠ 0) : a.reevaluate.cur = a.cur := by
  obtain ⟨finalizing, nextId, out, hquery⟩ := queryDue_eq a
  have hidle : a.queryDue.releaseIdle = a.queryDue := by
    rw [hquery]
    unfold releaseIdle
    refine if_neg fun hcond => ?_
    simp only [Bool.and_eq_true, Bool.not_eq_true', beq_iff_eq] at hcond
    obtain ⟨⟨⟨-, hfoc⟩, hlen⟩, -⟩ := hcond
    rcases h with h | h
    · rw [h] at hfoc
      cases hfoc
    · exact h hlen
  obtain ⟨inflight, nextId', out', hsend⟩ := send_eq a.queryDue.requestDue
  have hrequest := (Tame.requestDue a.queryDue : Tame False False _ _).still.cur
  unfold reevaluate
  rw [hidle, hsend]
  exact hrequest.trans (by rw [hquery])

theorem typeBytes_cur {c : Cur β} (hc : a.cur = some c) (hb : c.seg.base = c.accepted) (bs : List β) (hbs : bs ≠ []) :
    (a.typeBytes bs).cur = some { c with seg := ⟨c.seg.base, c.seg.bytes ++ bs⟩ } := by
  have hcur : (a.startTyping.appendTyped bs).cur = some { c with seg := ⟨c.seg.base, c.seg.bytes ++ bs⟩ } := by
    have : a.startTyping.cur = some c := hc
    simp only [appendTyped, this]
  rw [typeBytes, reevaluate_cur (.inr ?_), hcur]
  have hpos := length_pos_iff.mpr hbs
  simp only [unacceptedLen, hcur, length_append]
  omega

theorem recordCur_eq {v : View} {st : Stock β} {hist : List (Out β)} {S : EpochKey → List β}
    (h : a.Holdings v st hist) (hne : ∀ k, a.current ≠ some k → S k = st.streams k)
    (htake : ∀ c, a.cur = some c → (S (c.session, c.epoch)).take c.seg.base =
      (st.streams (c.session, c.epoch)).take c.seg.base) : a.recordCur S = st.streams := by
  unfold recordCur
  split
  next hc =>
    funext k
    exact hne k (by simp [current, hc])
  next c hc =>
    obtain ⟨-, -, -, -, hseg, -⟩ := h.cur hc
    funext k
    by_cases hk : k = (c.session, c.epoch)
    · subst hk
      rw [update_self, htake c hc, hseg.bytes, take_append_drop]
    · rw [update_of_ne hk]
      refine hne k fun hcur => hk ?_
      rw [current, hc, Option.map_some] at hcur
      exact (Option.some.inj hcur).symm

end Author

namespace Net
variable {H : Type} [DecidableEq H] {n : Net H} {i : H}

section
variable (I : n.Inv)
include I

theorem Inv.handled {a : Author (TypedByte H)} (hold : a.Holdings n.view (n.stock i) (n.sent i))
    (t : (n.authors i).Tame True True a) : Inv (n.flush i a) := by
  have h := I.flush hold ((I.author i).ids.tame t) (recordCur_eq hold (fun _ _ => rfl) fun _ _ => rfl)
    (fun _ => List.prefix_refl _) (I.author i).typing
  rwa [update_eq_self] at h

theorem Inv.setFocus (focused : Bool) : Inv (n.flush i ((n.authors i).setFocus focused)) :=
  I.handled ((I.author i).holdings.setFocus focused) (.call (.setFocus focused) rfl)

theorem Inv.rebind (s : Nat) : Inv (n.flush i ((n.authors i).rebind s)) := by
  have hold := (I.author i).holdings.rebind s
  have h := I.flush hold ((I.author i).ids.tame (.call (.rebind s) rfl)) (recordCur_eq hold (fun _ _ => rfl) fun _ _ => rfl)
    (fun _ => List.prefix_refl _) ((I.author i).typing.rebind s)
  rwa [update_eq_self] at h

theorem Inv.onRequestFailed (id : Nat) : Inv (n.flush i ((n.authors i).onRequestFailed id)) :=
  I.handled ((I.author i).holdings.onRequestFailed id) (.call (.onRequestFailed id) rfl)

theorem Inv.onRetryTimer : Inv (n.flush i (n.authors i).onRetryTimer) :=
  I.handled (I.author i).holdings.onRetryTimer (.call .onRetryTimer rfl)

theorem Inv.onSendTimer : Inv (n.flush i (n.authors i).onSendTimer) :=
  I.handled (I.author i).holdings.onSendTimer (.call .onSendTimer rfl)

theorem Inv.onOwnerLost (s : Nat) : Inv (n.flush i ((n.authors i).onOwnerLost s)) :=
  I.handled ((I.author i).holdings.onOwnerLost s) (.call (.onOwnerLost s) rfl)

theorem Inv.reconnect : Inv (n.reconnect i) := by
  have I' : Inv { n with conn := update n.conn i (n.conn i + 1) } := I.congr (fun h => h) fun h => h
  exact I'.handled (I.author i).holdings.onReconnect (.call .onReconnect rfl)

end

theorem Inv.used_of_stream (I : n.Inv) {k : EpochKey} (hk : n.assigned i k ≠ []) :
    Author.Used (n.sent i) (n.authors i) k := by
  rcases (I.author i).holdings.covered hk with h | h | h
  · exact .inl (.inl h)
  · exact .inl (.inr (.inl h))
  · rw [(I.author i).out, append_nil] at h
    exact .inr h

theorem Inv.stream_after_cur (I : n.Inv) {c : Cur (TypedByte H)} (hc : (n.authors i).cur = some c) {e : Nat}
    (he : c.epoch < e) : n.assigned i (c.session, e) = [] := by
  by_contra hne
  have hcur : (n.authors i).current = some (c.session, c.epoch) := by rw [current, hc, Option.map_some]
  obtain ⟨id, hid, -⟩ := (I.author i).ids.spent (.inl (.inl hcur))
  obtain ⟨id', hid', -⟩ := (I.author i).ids.spent (I.used_of_stream hne)
  have hle := (I.author i).ids.curMax hcur (I.used_of_stream hne) hid hid'
  have hlt := I.grants.order (gid_eq_some.mp hid) (gid_eq_some.mp hid') he
  omega

theorem Inv.typeBytes (I : n.Inv) (vals : List UInt8) : Inv (n.typeBytes i vals) := by
  have A := I.author i
  have hids := A.ids.tame (.call (.typeBytes (tag i (n.typedFor i).length vals)) rfl)
  have h₁ := A.holdings.quiet (b := (n.authors i).startTyping) .flags
  cases hc : (n.authors i).cur with
  | none =>
    have hold := (h₁.typeUnassigned hc (tag i (n.typedFor i).length vals)).reevaluate
    exact I.flush hold hids (recordCur_eq hold (fun _ _ => rfl) fun _ _ => rfl) (fun _ => List.prefix_refl _)
      (A.typing.typeUnassigned vals)
  | some c =>
    obtain ⟨hu, hs, -, hb, hseg, -⟩ := A.holdings.cur hc
    have hlast : ∀ e', c.epoch < e' → (n.stock i).streams ((n.stock i).session, e') = [] := fun e' he => by
      rw [← hs]
      exact I.stream_after_cur hc he
    have hold := (h₁.typeCur hc (tag i (n.typedFor i).length vals)).reevaluate
    refine I.flush hold hids ?_ (fun k => ?_) (A.typing.typeCur hu hlast vals)
    · cases vals with
      | nil =>
        have hst : ((n.stock i).typeCur c.epoch (tag i (n.typedFor i).length [])).streams = n.assigned i := by
          simp [Stock.typeCur, tag, stock]
        exact recordCur_eq hold (fun k _ => by rw [hst]) fun c' _ => by rw [hst]
      | cons x xs =>
        have hkeep := typeBytes_cur hc hb (tag i (n.typedFor i).length (x :: xs)) (by simp [tag])
        refine recordCur_eq hold (fun k hk => ?_) fun c' hc' => ?_
        · refine (update_of_ne (fun heq => hk ?_) _ _).symm
          exact (congrArg _ hkeep).trans (by rw [heq, ← hs]; rfl)
        · obtain rfl := Option.some.inj (hkeep.symm.trans hc')
          have hst : ((n.stock i).typeCur c.epoch (tag i (n.typedFor i).length (x :: xs))).streams
              (c.session, c.epoch) = n.assigned i (c.session, c.epoch) ++ tag i (n.typedFor i).length (x :: xs) := by
            rw [hs]
            exact update_self ..
          rw [hst]
          exact (take_append_of_le_length hseg.le).symm
    · by_cases hk : k = ((n.stock i).session, c.epoch)
      · subst hk
        simp only [Stock.typeCur, update_self]
        exact List.prefix_append _ _
      · simp only [Stock.typeCur, update_of_ne hk]
        exact List.prefix_refl _

theorem Inv.accepted_le (I : n.Inv) (i : H) (k : EpochKey) :
    n.view.accepted k ≤ ((n.stock i).streams k).length ∨ (n.authors i).current ≠ some k := by
  by_cases hk : (n.authors i).current = some k
  · obtain ⟨id, hid, -⟩ := (I.author i).ids.spent (.inl (.inl hk))
    refine .inl ?_
    show n.counter k ≤ _
    rw [I.hosts.counter k]
    exact (I.streams.granted (gid_eq_some.mp hid)).length_le
  · exact .inr hk

theorem Inv.unused_of_granted (I : n.Inv) {p : Pending} {s e e' : Nat} (hp : (n.authors i).pending = some p)
    (hg : n.gid i (s, e) = some p.id) (he : e ≤ e') : ¬Author.Used (n.sent i) (n.authors i) (s, e') := by
  intro hused
  obtain ⟨id, hid, -, hlt⟩ := (I.author i).ids.spent hused
  have hlt := hlt p hp
  rcases he.lt_or_eq with he | rfl
  · have := I.grants.order (gid_eq_some.mp hg) (gid_eq_some.mp hid) he
    omega
  · rw [hg] at hid
    have := Option.some.inj hid
    omega

theorem Inv.adopt (I : n.Inv) {p : Pending} {e : Nat} (hp : (n.authors i).pending = some p) (hk : p.kind = .acquire)
    (hg : n.gid i ((n.authors i).session, e) = some p.id) (hfoc : (n.authors i).focused = true) :
    Inv (n.flush i ({ n.authors i with pending := none }.adopt (n.authors i).session e).reevaluate) := by
  have A := I.author i
  have hunused : ∀ e', e ≤ e' → ¬Author.Used (n.sent i) (n.authors i) ((n.authors i).session, e') :=
    fun _ he => I.unused_of_granted hp hg he
  have hcur : (n.authors i).cur = none := Option.map_eq_none_iff.mp (A.ids.acquiring hp hk)
  have hstream : ∀ e', e ≤ e' → n.assigned i ((n.authors i).session, e') = [] := by
    intro e' he
    by_contra hne
    exact hunused e' he (I.used_of_stream hne)
  have hold : Author.Holdings n.view ((n.stock i).assign e) (n.sent i)
      ({ n.authors i with pending := none }.adopt (n.authors i).session e) := by
    refine A.holdings.clearPending.adopt hcur ?_ (hstream e le_rfl) (fun h => ?_) fun h => ?_
    · have := (I.grants.upto (gid_eq_some.mp hg)).1
      omega
    · exact hunused e le_rfl (.inl (.inr (.inl h)))
    · refine hunused e le_rfl (.inr ?_)
      rwa [show ({ n.authors i with pending := none } : Author (TypedByte H)).out = [] from A.out, append_nil] at h
  have hids := (A.ids.adopt hp hg).tame (.reevaluate _)
  have hkeep : ({ n.authors i with pending := none }.adopt (n.authors i).session e).reevaluate.cur =
      ({ n.authors i with pending := none }.adopt (n.authors i).session e).cur := reevaluate_cur (.inl hfoc)
  have htyp : Typing i (n.typedFor i) ((n.stock i).assign e) := A.typing.assign hstream
  have h := I.flush hold.reevaluate hids ?_ (fun k => ?_) htyp
  · rwa [update_eq_self] at h
  · refine recordCur_eq hold.reevaluate (fun k hne => ?_) fun c hc => ?_
    · refine (update_of_ne (fun heq => hne ?_) _ _).symm
      exact (congrArg _ hkeep).trans (by rw [heq]; rfl)
    · obtain rfl := Option.some.inj (hc.symm.trans hkeep)
      rfl
  · by_cases heq : k = ((n.stock i).session, e)
    · subst heq
      have : n.assigned i ((n.stock i).session, e) = [] := hstream e le_rfl
      rw [this]
      exact nil_prefix
    · simp only [Stock.assign, update_of_ne heq]
      exact List.prefix_refl _

theorem Inv.onGranted (I : n.Inv) {id s e : Nat} (hg : n.gid i (s, e) = some id) :
    Inv (n.flush i ((n.authors i).onGranted id s e)) := by
  have A := I.author i
  have hrel : Inv (n.flush i ((n.authors i).releaseGrant s e).reevaluate) :=
    I.handled (A.holdings.releaseGrant s e).reevaluate ((Author.Tame.releaseGrant _ s e).trans (.reevaluate _))
  unfold Author.onGranted Author.takeGrant
  split
  next pid ps hp =>
    split
    next hid =>
      subst hid
      dsimp only
      split
      next hc =>
        obtain ⟨-, hs, hfoc, -⟩ := hc
        subst hs
        exact I.adopt hp rfl hg hfoc
      · exact I.handled (A.holdings.clearPending.releaseGrant s e).reevaluate
          ((Author.Tame.clearPending _).trans ((Author.Tame.releaseGrant _ s e).trans (.reevaluate _)))
    · exact hrel
  · exact hrel

theorem Inv.handle (I : n.Inv) {m : ToClient} (hm : MsgOk n.view n.grant i (n.sent i) m) :
    Inv (n.flush i ((n.authors i).handle m)) := by
  have A := I.author i
  cases m with
  | granted id s e => exact I.onGranted (gid_eq_some.mpr hm)
  | released id => exact I.handled (A.holdings.onReleased id) (.call (.onReleased id) rfl)
  | ack attempt s e acc com =>
    exact I.handled (A.holdings.onInputAck attempt hm.1 hm.2 (I.accepted_le i _)) (.call (.onInputAck ..) rfl)
  | retry attempt s e gap =>
    exact I.handled (A.holdings.onWriteRetryable attempt hm (I.accepted_le i _)) (.call (.onWriteRetryable ..) rfl)
  | lost s e other => exact I.handled (A.holdings.onLeaseLost s e other) (.call (.onLeaseLost ..) rfl)
  | reclaimed id ok cur acc com finals =>
    obtain ⟨s, e, hmem, hok, hfin⟩ := hm
    refine I.handled (A.holdings.onReclaimResult ok cur (fun s' e' hp => ?_) (I.accepted_le i))
      (.call (.onReclaimResult ..) rfl)
    obtain ⟨rfl, rfl⟩ := A.ids.reclaim hp (mem_append_left _ hmem)
    refine ⟨hok, fun hcur => hfin.resolve_right ?_⟩
    rintro ⟨j, id', hj, hne⟩
    obtain ⟨id'', hid, -⟩ := A.ids.spent (.inl (.inl hcur))
    rw [gid_eq_some.mp hid] at hj
    cases hj
    exact hne rfl
  | reclaimUnknown id => exact I.handled (A.holdings.onReclaimEpochUnknown id) (.call (.onReclaimEpochUnknown id) rfl)
  | epoch id s e fa cm pd fenced => exact I.handled (A.holdings.onEpochState id hm) (.call (.onEpochState ..) rfl)
  | epochUnknown s e => exact I.handled (A.holdings.onEpochUnknown s e) (.call (.onEpochUnknown s e) rfl)
  | failed id => exact I.onRequestFailed id
  | vacated s => exact I.handled (A.holdings.onVacated s) (.call (.onVacated s) rfl)

theorem Inv.deliverToClient (I : n.Inv) (i : H) (c : Nat) : Inv (n.deliverToClient i c) := by
  unfold Net.deliverToClient
  split
  · exact I
  next m rest hc =>
    have I' : Inv { n with toClient := setAt n.toClient i c rest } :=
      I.congr (fun h => h) fun h => mem_of_mem_setAt hc h
    have hm : MsgOk n.view n.grant i (n.sent i) m := I.toClient (hc ▸ mem_cons_self)
    dsimp only
    split
    · exact I'
    · exact I'.handle hm

end Net
end Ferryx
